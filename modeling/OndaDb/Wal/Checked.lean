import OndaDb.Wal.Record

-- The payload decoders with the slices they take, the buffers they ask for and the rounds of their
-- loops; the records they deliver are collected.
namespace OndaDb.Wal.Checked

open Encoding

-- How a call ends without a value: it returns an error, a slice or a request is out of range, the
-- allocator has no room, or the rounds of a loop are used up.
inductive Stop
  | error (e : OndaError)
  | panic
  | abort
  | hang
  deriving DecidableEq, Repr

abbrev Result (α : Type) := Except Stop α

def lift : Except OndaError α → Result α
  | .ok a => .ok a
  | .error e => .error (.error e)

structure Host where
  grants : Nat → Bool

def Host.request (host : Host) (n : Nat) : Result Unit :=
  if host.grants n then .ok () else .error .abort

-- `Vec::with_capacity` for `count` items of `size` bytes; more than `isize::MAX` bytes panic.
def Host.withCapacity (host : Host) (size count : Nat) : Result Unit :=
  if size * count ≥ 2 ^ 63 then .error .panic else host.request (size * count)

def Host.toVec (host : Host) (b : Bytes) : Result Bytes := do
  host.request b.length
  .ok b

-- `&p[off..]`
def sliceFrom (p : Bytes) (off : Nat) : Result Bytes :=
  if off ≤ p.length then .ok (p.drop off) else .error .panic

-- `&p[i..j]`
def slice (p : Bytes) (i j : Nat) : Result Bytes :=
  if i ≤ j ∧ j ≤ p.length then .ok ((p.take j).drop i) else .error .panic

def field (read : Bytes → Option (α × Bytes)) (text : String) (p : Bytes) (off : Nat) : Result (α × Nat) := do
  let q ← sliceFrom p off
  let (x, rest) ← lift (required text (read q))
  .ok (x, off + (q.length - rest.length))

def slotsAt (text : String) (alen blen : Nat) (p : Bytes) (off : Nat) : Result (Bytes × Bytes × Nat) := do
  if alen + blen ≥ 2 ^ 64 then .error (.error (.corruption text))
  else if p.length < off then .error .panic
  else if p.length - off < alen + blen then .error (.error (.corruption text))
  else
    let a ← slice p off (off + alen)
    let b ← slice p (off + alen) (off + (alen + blen))
    .ok (a, b, off + (alen + blen))

def decodeRawRecord (p : Bytes) : Result (RawRecord × Nat) := do
  let corrupt := "wal: malformed envelope record"
  let (kind, off) ← field uvarint corrupt p 0
  let kind ← lift (RecordKind.check kind)
  let (mods, off) ← field uvarint corrupt p off
  lift (Modifiers.check mods)
  let (alen, off) ← field uvarint corrupt p off
  let (blen, off) ← field uvarint corrupt p off
  let (seq, off) ← field uvarint corrupt p off
  let (ttl, off) ← if mods &&& Modifiers.hasTtl ≠ 0 then field varint corrupt p off else .ok (0, off)
  if mods &&& Modifiers.hasVlog ≠ 0 then
    .error (.error (.corruption "wal: envelope record sets HAS_VLOG"))
  else
    let (a, b, used) ← slotsAt corrupt alen blen p off
    .ok (⟨kind, mods, seq, ttl, a, b⟩, used)

def decodeRecord (host : Host) (p : Bytes) : Result (Record × Nat) := do
  let corrupt := "wal: malformed record"
  match p with
  | [] => .error (.error (.corruption corrupt))
  | fl :: _ =>
    lift (Flags.check fl)
    let (klen, off) ← field uvarint corrupt p 1
    let (vlen, off) ← field uvarint corrupt p off
    let (seq, off) ← field uvarint corrupt p off
    let (ttl, off) ← if fl &&& Flags.hasTtl ≠ 0 then field varint corrupt p off else .ok (0, off)
    let (key, value, used) ← slotsAt corrupt klen vlen p off
    let key ← host.toVec key
    let value ← host.toVec value
    let kind := pointKind (fl &&& Flags.tombstone ≠ 0) (fl &&& Flags.singleDelete ≠ 0)
    .ok (⟨key, value, seq, ttl, kind⟩, used)

def rawToPoint (host : Host) (kind : Kind) (r : RawRecord) : Result Record := do
  let key ← host.toVec r.a
  let value ← host.toVec r.b
  .ok { key, value, seq := r.seq, ttl := r.ttl, kind }

def decodeEnvelopeRecord (host : Host) (p : Bytes) : Result (ReplayRecord × Nat) := do
  let (r, used) ← decodeRawRecord p
  match r.kind with
  | .point kind =>
    let rec ← rawToPoint host kind r
    .ok (.point rec, used)
  | .rangeDelete =>
    if r.mods ≠ 0 then
      .error (.error (.corruption "wal: range-delete record carries modifiers"))
    else if r.a.length = 0 ∨ r.b.length = 0 then
      .error (.error (.corruption "wal: range-delete record has an empty bound"))
    else
      let start ← host.toVec r.a
      let stop ← host.toVec r.b
      .ok (.rangeDelete start stop r.seq, used)
  | kind =>
    let code := kind.code
    .error (.error (.corruption s!"wal: transaction-control kind {code} outside a control frame"))

def decodeControlRaws (fuel : Nat) : Nat → Bytes → Result (List RawRecord)
  | 0,         p => if p = [] then .ok [] else .error (.error (controlFrame "has records past the promised count"))
  | count + 1, p =>
    if p = [] then .error (.error (controlFrame "promises more records than exist"))
    else match fuel with
      | 0 => .error .hang
      | fuel + 1 => do
        let (r, used) ← decodeRawRecord p
        if r.seq ≠ 0 then .error (.error (controlFrame "record carries a non-zero sequence"))
        else if r.mods / 4 ≠ 0 ∨ r.mods % 2 ≠ 0 then
          .error (.error (controlFrame "record carries an unexpected modifier"))
        else
          let p ← sliceFrom p used
          let rs ← decodeControlRaws fuel count p
          .ok (r :: rs)

def prepared (host : Host) : List RawRecord → Result (List Record)
  | [] => .ok []
  | r :: rs => do
    match r.kind with
    | .point kind =>
      let rec ← rawToPoint host kind r
      let rs ← prepared host rs
      .ok (rec :: rs)
    | _ => .error (.error (controlFrame "prepare holds a record that is not a point write"))

-- Bytes of a `(RawRecord, usize)` and of a `Record`.
def rawSize : Nat := 72
def recordSize : Nat := 72

def decodeControlFrame (host : Host) (p : Bytes) (count : Nat) : Result ReplayRecord := do
  host.withCapacity rawSize count
  match ← decodeControlRaws p.length count p with
  | [] => .error .panic
  | head :: rest =>
    match head.kind with
    | .prepare =>
      if head.mods ≠ 0 then .error (.error (controlFrame "prepare record carries modifiers"))
      else
        let id ← lift (controlId head.a)
        if head.b.length % 8 ≠ 0 then
          .error (.error (controlFrame "prepare cf-id list is not a whole number of ids"))
        else
          host.request head.b.length
          host.withCapacity recordSize rest.length
          let records ← prepared host rest
          .ok (.prepare id (chunks head.b) records)
    | .commitDecision =>
      if rest ≠ [] then .error (.error (controlFrame "decision is not a single record"))
      else if head.mods ≠ 0 then .error (.error (controlFrame "decision record carries modifiers"))
      else
        let id ← lift (controlId head.a)
        if head.b.length ≠ 16 then .error (.error (controlFrame "commit decision payload is not 16 bytes"))
        else
          let commitSeq ← slice head.b 0 8
          let count ← sliceFrom head.b 8
          if commitSeq.length ≠ 8 ∨ count.length ≠ 8 then .error .panic
          else .ok (.decision id (some (readLe commitSeq, readLe count)))
    | .abortDecision =>
      if rest ≠ [] then .error (.error (controlFrame "decision is not a single record"))
      else if head.mods ≠ 0 then .error (.error (controlFrame "decision record carries modifiers"))
      else
        let id ← lift (controlId head.a)
        if head.b ≠ [] then .error (.error (controlFrame "abort decision carries a payload"))
        else .ok (.decision id none)
    | kind =>
      let code := kind.code
      .error (.error (controlFrame s!"leads with kind {code}"))

def decodeEnvelopeRecords (host : Host) (fuel : Nat) : Nat → Bytes → Result (List ReplayRecord)
  | 0,         p => if p = [] then .ok [] else .error (.error (.corruption "wal: malformed envelope"))
  | count + 1, p =>
    if p = [] then .error (.error (.corruption "wal: malformed envelope"))
    else match fuel with
      | 0 => .error .hang
      | fuel + 1 => do
        let (r, used) ← decodeEnvelopeRecord host p
        let p ← sliceFrom p used
        let rs ← decodeEnvelopeRecords host fuel count p
        .ok (r :: rs)

def decodeEnvelope (host : Host) (payload : Bytes) : Result (List ReplayRecord) := do
  let corrupt := "wal: malformed envelope"
  let p ← sliceFrom payload 1
  let (schema, n) ← field uvarint corrupt p 0
  if schema ≠ Schema.perCf.code ∧ schema ≠ Schema.unified.code then
    .error (.error (.unsupportedFormat s!"wal envelope schema {schema} is not implemented by this binary"))
  else
    let p ← sliceFrom p n
    let (count, n) ← field uvarint corrupt p 0
    let p ← sliceFrom p n
    if leadsControl p then
      if count = 0 then .error (.error (.corruption corrupt))
      else
        let r ← decodeControlFrame host p count
        .ok [r]
    else decodeEnvelopeRecords host p.length count p

def decodeRecords (host : Host) : Nat → Bytes → Result (List ReplayRecord)
  | _,        [] => .ok []
  | 0,        _ :: _ => .error .hang
  | fuel + 1, p => do
    let (r, used) ← decodeRecord host p
    let p ← sliceFrom p used
    let rs ← decodeRecords host fuel p
    .ok (.point r :: rs)

def decodeFramePayload (host : Host) (payload : Bytes) : Result (List ReplayRecord) :=
  match payload with
  | [] => .ok []
  | b :: _ => if b = envelopeTag then decodeEnvelope host payload else decodeRecords host payload.length payload

end OndaDb.Wal.Checked

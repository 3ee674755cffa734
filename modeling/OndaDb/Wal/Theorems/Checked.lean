import OndaDb.Delta.Theorems.Varint
import OndaDb.Wal.Checked

namespace OndaDb.Wal.Checked

open Encoding Reader

structure At (p : Bytes) (off : Nat) (rest : Bytes) : Prop where
  le : off ≤ p.length
  drop : p.drop off = rest

theorem At.zero (p : Bytes) : At p 0 p :=
  ⟨Nat.zero_le _, rfl⟩

theorem At.sliceFrom (h : At p off rest) : sliceFrom p off = .ok rest := by
  rw [Checked.sliceFrom, if_pos h.le, h.drop]

theorem At.length (h : At p off rest) : rest.length = p.length - off := by
  rw [← h.drop, List.length_drop]

theorem At.append (h : At p off (b ++ rest)) : At p (off + b.length) rest := by
  have hl := h.length
  have hle := h.le
  rw [List.length_append] at hl
  exact ⟨by omega, by rw [← List.drop_drop, h.drop, List.drop_left]⟩

theorem At.split (h : At p off rest) (hn : off + n ≤ p.length) :
    ∃ b rest', rest = b ++ rest' ∧ b.length = n :=
  ⟨rest.take n, rest.drop n, (List.take_append_drop n rest).symm, by rw [List.length_take, h.length]; omega⟩

theorem At.slice (h : At p off (b ++ rest)) : slice p off (off + b.length) = .ok b := by
  have hle := h.append.le
  rw [Checked.slice, if_pos ⟨Nat.le_add_right _ _, hle⟩, List.drop_take, h.drop, Nat.add_sub_cancel_left, List.take_left]

theorem At.of_slice (h : At p i rest) (hs : Checked.slice p i j = .ok b) :
    ∃ rest', rest = b ++ rest' ∧ At p j rest' ∧ i + b.length = j := by
  rw [Checked.slice] at hs
  split at hs
  case isFalse => cases hs
  case isTrue hj =>
    cases hs
    refine ⟨p.drop j, ?_, ⟨hj.2, rfl⟩, by rw [List.length_drop, List.length_take]; omega⟩
    rw [← h.drop, List.drop_take]
    conv_rhs => rw [← Nat.add_sub_cancel' hj.1, ← List.drop_drop]
    rw [Nat.add_sub_cancel' hj.1, List.take_append_drop]

-- A read over offsets into `p` ends as the read over the bytes that are left: with the same error, or
-- with the same value, which satisfies `Q`, `m` or more bytes into `p`.
inductive Agrees (p : Bytes) (m : Nat) (Q : α → Prop) : Result (α × Nat) → Except OndaError (α × Bytes) → Prop
  | error (e : OndaError) : Agrees p m Q (.error (.error e)) (.error e)
  | ok {a : α} {off : Nat} {rest : Bytes} (h : At p off rest) (hm : m ≤ off) (hq : Q a) :
    Agrees p m Q (.ok (a, off)) (.ok (a, rest))

namespace Agrees

variable {p : Bytes} {m n : Nat} {Q : α → Prop} {R : β → Prop}

theorem bind (h : Agrees p m Q x y)
    (hfg : ∀ a off rest, At p off rest → m ≤ off → Q a → Agrees p n R (f (a, off)) (g (a, rest))) :
    Agrees p n R (x >>= f) (y >>= g) := by
  cases h
  case error e => exact .error e
  case ok h hm hq => exact hfg _ _ _ h hm hq

theorem lift (x : Except OndaError α) (hfg : ∀ a, Agrees p n R (f a) (g a)) :
    Agrees p n R (Checked.lift x >>= f) (x >>= g) := by
  cases x
  case error e => exact .error e
  case ok a => exact hfg a

theorem guard [Decidable c] (h : Agrees p n R x y) :
    Agrees p n R (if c then .error (.error e) else x) (if c then .error e else y) := by
  split
  case isTrue => exact .error e
  case isFalse => exact h

end Agrees

inductive Lifts (P : α → Prop) : Result α → Except OndaError α → Prop
  | error (e : OndaError) : Lifts P (.error (.error e)) (.error e)
  | ok {a : α} (h : P a) : Lifts P (.ok a) (.ok a)

theorem Lifts.bind (h : Lifts P x y) (hfg : ∀ a, P a → Lifts R (f a) (g a)) :
    Lifts R (x >>= f) (y >>= g) := by
  cases h
  case error e => exact .error e
  case ok h => exact hfg _ h

theorem Lifts.guard [Decidable c] (h : ¬c → Lifts P x y) :
    Lifts P (if c then .error (.error e) else x) (if c then .error e else y) := by
  split
  case isTrue => exact .error e
  case isFalse hc => exact h hc

theorem lifts_lift (x : Except OndaError α) : Lifts (fun _ => True) (lift x) x := by
  cases x
  case error e => exact .error e
  case ok a => exact .ok trivial

theorem Agrees.lifts {p : Bytes} {m : Nat} {Q : α → Prop} {R : β → Prop} {x : Result (α × Nat)}
    {y : Except OndaError (α × Bytes)} (h : Agrees p m Q x y) {f : α × Nat → Result β}
    (hfg : ∀ a off rest, At p off rest → m ≤ off → Q a → Lifts R (f (a, off)) (g (a, rest))) :
    Lifts R (x >>= f) (y >>= g) := by
  cases h
  case error e => exact .error e
  case ok h hm hq => exact hfg _ _ _ h hm hq

def Takes (read : Bytes → Option (α × Bytes)) : Prop :=
  ∀ b x rest, read b = some (x, rest) → ∃ p, b = p ++ rest ∧ p ≠ []

theorem takes_uvarint : Takes uvarint := by
  intro b x rest h
  obtain ⟨p, hb, -, hp⟩ := uvarint_longForm h
  refine ⟨p, hb, fun hn => ?_⟩
  have hle := hp.length_le
  rw [hn, List.length_nil] at hle
  exact appendUvarint_ne_nil x (List.length_eq_zero_iff.mp (Nat.le_zero.mp hle))

theorem takes_varint : Takes varint := by
  intro b t rest h
  obtain ⟨⟨x, r⟩, hx, he⟩ := Option.map_eq_some_iff.mp h
  cases he
  exact takes_uvarint b x rest hx

theorem agrees_field {read : Bytes → Option (α × Bytes)} (hr : Takes read) (text : String) {p rest : Bytes}
    {off : Nat} (h : At p off rest) :
    Agrees p (off + 1) (fun _ => True) (field read text p off) (required text (read rest)) := by
  rw [field, h.sliceFrom]
  change Agrees p (off + 1) _ (Checked.lift (required text (read rest)) >>= _) _
  cases hx : read rest
  case none => exact .error _
  case some x =>
    obtain ⟨a, rest'⟩ := x
    obtain ⟨q, rfl, hq⟩ := hr _ _ _ hx
    have hlen := h.length
    have hpos := List.length_pos_of_ne_nil hq
    have hle := h.le
    have hcut : (q ++ rest').length - rest'.length = q.length := by simp
    rw [List.length_append] at hlen
    have hat : At p (off + q.length) rest' := by
      refine ⟨by omega, ?_⟩
      rw [← List.drop_drop, h.drop, List.drop_left]
    have hok : Agrees p (off + 1) (fun _ => True) (.ok (a, off + q.length)) (.ok (a, rest')) :=
      .ok hat (by omega) trivial
    rw [← hcut] at hok
    exact hok

theorem agrees_ttl [Decidable c] (text : String) (h : At p off rest)
    (hfg : ∀ ttl off' rest', At p off' rest' → off ≤ off' → Agrees p n R (f (ttl, off')) (g (ttl, rest'))) :
    Agrees p n R (if c then field varint text p off >>= f else .ok (0, off) >>= f)
      (if c then required text (varint rest) >>= g else .ok (0, rest) >>= g) := by
  split
  case isTrue => exact (agrees_field takes_varint text h).bind fun ttl off' rest' h' hm _ => hfg ttl off' rest' h' (by omega)
  case isFalse => exact hfg 0 off rest h le_rfl

theorem agrees_slots (text : String) (alen blen : Nat) (h : At p off rest)
    (hfg : ∀ a b off' rest', At p off' rest' → off ≤ off' → a.length ≤ p.length → b.length ≤ p.length → Agrees p n R (f (a, b, off')) (g (a, b, rest'))) :
    Agrees p n R (slotsAt text alen blen p off >>= f) (slots text alen blen rest >>= g) := by
  have hlen := h.length
  have hle := h.le
  rw [slotsAt, slots]
  by_cases hbig : alen + blen ≥ 2 ^ 64
  · rw [if_pos hbig, if_pos (.inl hbig)]
    exact .error _
  · by_cases hshort : rest.length < alen + blen
    · rw [if_neg hbig, if_neg (by omega), if_pos (by omega), if_pos (.inr hshort)]
      exact .error _
    · have ha : slice p off (off + alen) = .ok (rest.take alen) := by
        rw [slice, if_pos ⟨by omega, by omega⟩, List.take_add, h.drop,
          List.drop_left' (by rw [List.length_take]; omega)]
      have hb : slice p (off + alen) (off + (alen + blen)) = .ok ((rest.drop alen).take blen) := by
        rw [slice, if_pos ⟨by omega, by omega⟩, ← Nat.add_assoc, List.take_add,
          List.drop_left' (by rw [List.length_take]; omega), ← List.drop_drop, h.drop]
      rw [if_neg hbig, if_neg (by omega), if_neg (by omega), if_neg (by omega), ha, hb]
      refine hfg _ _ _ _ ⟨by omega, ?_⟩ (by omega) ?_ ?_
      · rw [← List.drop_drop, h.drop]
      · rw [List.length_take]
        omega
      · rw [List.length_take, List.length_drop]
        omega

def Within (p : Bytes) (a b : Bytes) : Prop :=
  a.length ≤ p.length ∧ b.length ≤ p.length

theorem agrees_decodeRawRecord (p : Bytes) :
    Agrees p 1 (fun r => Within p r.a r.b) (decodeRawRecord p) (Wal.decodeRawRecord p) := by
  rw [decodeRawRecord, Wal.decodeRawRecord]
  apply (agrees_field takes_uvarint _ (At.zero p)).bind
  intro kind off rest h h0 _
  apply Agrees.lift
  intro kind
  apply (agrees_field takes_uvarint _ h).bind
  intro mods off₁ rest h h1 _
  apply Agrees.lift
  intro _
  apply (agrees_field takes_uvarint _ h).bind
  intro alen off₂ rest h h2 _
  apply (agrees_field takes_uvarint _ h).bind
  intro blen off₃ rest h h3 _
  apply (agrees_field takes_uvarint _ h).bind
  intro seq off₄ rest h h4 _
  apply agrees_ttl _ h
  intro ttl off₅ rest h h5
  apply Agrees.guard
  apply agrees_slots _ _ _ h
  intro a b off' rest' h' hle ha hb
  exact .ok h' (by omega) ⟨ha, hb⟩

theorem Host.toVec_of_grants {host : Host} {b : Bytes} (h : host.grants b.length = true) :
    host.toVec b = .ok b := by
  rw [Host.toVec, Host.request, if_pos h]
  rfl

def Host.Holds (host : Host) (n : Nat) : Prop :=
  ∀ k, k ≤ recordSize * n → host.grants k = true

theorem Host.Holds.toVec {host : Host} {n : Nat} (h : host.Holds n) {b : Bytes} (hb : b.length ≤ n) :
    host.toVec b = .ok b := by
  refine Host.toVec_of_grants (h _ ?_)
  simp only [recordSize]
  omega

variable {host : Host} {n : Nat}

theorem agrees_decodeRecord (hroom : host.Holds n) {p : Bytes} (hp : p.length ≤ n) :
    Agrees p 1 (fun _ => True) (decodeRecord host p) (Wal.decodeRecord p) := by
  cases p
  case nil => exact .error _
  case cons fl q =>
    rw [decodeRecord, Wal.decodeRecord]
    apply Agrees.lift
    intro _
    have h : At (fl :: q) 1 q := ⟨by simp, rfl⟩
    apply (agrees_field takes_uvarint _ h).bind
    intro klen off₁ rest h h1 _
    apply (agrees_field takes_uvarint _ h).bind
    intro vlen off₂ rest h h2 _
    apply (agrees_field takes_uvarint _ h).bind
    intro seq off₃ rest h h3 _
    apply agrees_ttl _ h
    intro ttl off₄ rest h h4
    apply agrees_slots _ _ _ h
    intro a b off' rest' h' hle ha hb
    dsimp only
    rw [hroom.toVec (ha.trans hp), hroom.toVec (hb.trans hp)]
    exact .ok h' (by omega) trivial

theorem agrees_decodeEnvelopeRecord (hroom : host.Holds n) {p : Bytes} (hp : p.length ≤ n) :
    Agrees p 1 (fun _ => True) (decodeEnvelopeRecord host p) (Wal.decodeEnvelopeRecord p) := by
  rw [decodeEnvelopeRecord, Wal.decodeEnvelopeRecord]
  apply (agrees_decodeRawRecord p).bind
  intro r off rest h h1 hr
  have ha := hroom.toVec (hr.left.trans hp)
  have hb := hroom.toVec (hr.right.trans hp)
  dsimp only
  cases r.kind
  case point kind =>
    dsimp only
    rw [rawToPoint, ha, hb]
    exact .ok h h1 trivial
  case rangeDelete =>
    rw [ha, hb]
    exact .guard (.guard (.ok h h1 trivial))
  case prepare | commitDecision | abortDecision => exact .error _

theorem Within.of_at (h : At p off rest) (hw : Within rest a b) :
    Within p a b := by
  have hlen := h.length
  exact ⟨hw.left.trans (by omega), hw.right.trans (by omega)⟩

theorem lifts_decodeControlRaws {p : Bytes} (hf : p.length ≤ fuel) :
    Lifts (fun rs => rs.length = count ∧ rs.length ≤ p.length ∧ ∀ r ∈ rs, Within p r.a r.b)
      (decodeControlRaws fuel count p) (Wal.decodeControlRaws count p) := by
  induction count generalizing fuel p
  case zero =>
    rw [decodeControlRaws, Wal.decodeControlRaws]
    split
    case isTrue => exact .ok (by simp)
    case isFalse => exact .error _
  case succ count ih =>
    rw [decodeControlRaws.eq_def, Wal.decodeControlRaws]
    apply Lifts.guard
    intro hne
    cases fuel
    case zero => exact absurd (List.length_eq_zero_iff.mp (Nat.le_zero.mp hf)) hne
    case succ fuel =>
      apply (agrees_decodeRawRecord p).lifts
      intro r off rest h hoff hr
      have hlen := h.length
      dsimp only
      rw [h.sliceFrom]
      refine .guard fun _ => .guard fun _ => ?_
      have hfuel : rest.length ≤ fuel := by omega
      apply (ih hfuel).bind
      intro rs hrs
      refine .ok ⟨by simp [hrs.left], ?_, ?_⟩
      · have := hrs.right.left
        have hle := h.le
        simp only [List.length_cons]
        omega
      · intro r' hr'
        obtain rfl | hr' := List.mem_cons.mp hr'
        · exact hr
        · exact .of_at h (hrs.right.right r' hr')

theorem lifts_prepared (hroom : host.Holds n) {rs : List RawRecord}
    (hrs : ∀ r ∈ rs, r.a.length ≤ n ∧ r.b.length ≤ n) :
    Lifts (fun _ => True) (prepared host rs) (Wal.prepared rs) := by
  induction rs
  case nil => exact .ok trivial
  case cons r rs ih =>
    obtain ⟨ha, hb⟩ := hrs r List.mem_cons_self
    rw [prepared, Wal.prepared]
    cases r.kind
    case point kind =>
      dsimp only
      rw [rawToPoint, hroom.toVec ha, hroom.toVec hb]
      apply (ih fun r hr => hrs r (List.mem_cons_of_mem _ hr)).bind
      exact fun _ _ => .ok trivial
    all_goals exact .error _

theorem Host.Holds.withCapacity (hroom : host.Holds n) (hc : count ≤ n) (hn : n < 2 ^ 32) :
    host.withCapacity recordSize count = .ok () := by
  have hle : recordSize * count ≤ recordSize * n := Nat.mul_le_mul_left _ hc
  rw [Host.withCapacity, if_neg (by simp only [recordSize] at hle ⊢; omega), Host.request, if_pos (hroom _ hle)]

theorem lifts_decodeControlFrame (hroom : host.Holds n) (hn : n < 2 ^ 32) (hp : p.length ≤ n) (hc : count ≠ 0)
    (hg : host.withCapacity rawSize count = .ok ()) :
    Lifts (fun _ => True) (decodeControlFrame host p count) (Wal.decodeControlFrame p count) := by
  rw [decodeControlFrame, Wal.decodeControlFrame, hg]
  apply (lifts_decodeControlRaws le_rfl).bind
  intro rs hrs
  cases rs
  case nil => exact absurd hrs.left.symm hc
  case cons head rest =>
    obtain ⟨-, hlen, hw⟩ := hrs
    have hhead := hw head List.mem_cons_self
    have hrest : ∀ r ∈ rest, r.a.length ≤ n ∧ r.b.length ≤ n := fun r hr =>
      have h := hw r (List.mem_cons_of_mem _ hr)
      ⟨h.left.trans hp, h.right.trans hp⟩
    dsimp only
    cases head.kind
    case prepare =>
      apply Lifts.guard
      intro _
      apply (lifts_lift (controlId head.a)).bind
      intro id _
      apply Lifts.guard
      intro _
      have hb : host.request head.b.length = .ok () := by
        have hle := hhead.right.trans hp
        rw [Host.request, if_pos (hroom _ (by simp only [recordSize]; omega))]
      rw [List.length_cons] at hlen
      rw [hb, hroom.withCapacity (by omega : rest.length ≤ n) hn]
      apply (lifts_prepared hroom hrest).bind
      exact fun _ _ => .ok trivial
    case commitDecision =>
      refine .guard fun _ => .guard fun _ => ?_
      apply (lifts_lift (controlId head.a)).bind
      intro id _
      apply Lifts.guard
      intro h16
      have hb : head.b.length = 16 := not_not.mp h16
      have hseq : slice head.b 0 8 = .ok (head.b.take 8) := by
        rw [slice, if_pos (by omega), List.drop_zero]
      have hcount : sliceFrom head.b 8 = .ok (head.b.drop 8) := by
        rw [sliceFrom, if_pos (by omega)]
      have hlens : ¬ ((head.b.take 8).length ≠ 8 ∨ (head.b.drop 8).length ≠ 8) := by
        simp [hb]
      rw [hseq, hcount]
      change Lifts _ (if (head.b.take 8).length ≠ 8 ∨ (head.b.drop 8).length ≠ 8 then _ else _) _
      rw [if_neg hlens]
      exact .ok trivial
    case abortDecision =>
      refine .guard fun _ => .guard fun _ => ?_
      apply (lifts_lift (controlId head.a)).bind
      exact fun id _ => .guard fun _ => .ok trivial
    all_goals exact .error _

theorem lifts_decodeEnvelopeRecords (hroom : host.Holds n) {p : Bytes} (hp : p.length ≤ n)
    (hf : p.length ≤ fuel) :
    Lifts (fun _ => True) (decodeEnvelopeRecords host fuel count p) (Wal.decodeEnvelopeRecords count p) := by
  induction count generalizing fuel p
  case zero =>
    rw [decodeEnvelopeRecords, Wal.decodeEnvelopeRecords]
    split
    case isTrue => exact .ok trivial
    case isFalse => exact .error _
  case succ count ih =>
    rw [decodeEnvelopeRecords.eq_def, Wal.decodeEnvelopeRecords]
    apply Lifts.guard
    intro hne
    cases fuel
    case zero => exact absurd (List.length_eq_zero_iff.mp (Nat.le_zero.mp hf)) hne
    case succ fuel =>
      apply (agrees_decodeEnvelopeRecord hroom hp).lifts
      intro r off rest h hoff _
      have hlen := h.length
      have hle := h.le
      dsimp only
      rw [h.sliceFrom]
      have hrest : rest.length ≤ n := by omega
      have hfuel : rest.length ≤ fuel := by omega
      apply (ih hrest hfuel).bind
      exact fun _ _ => .ok trivial

theorem lifts_decodeRecords (hroom : host.Holds n) {p : Bytes} (hp : p.length ≤ n) (hf : p.length ≤ fuel) :
    Lifts (fun _ => True) (decodeRecords host fuel p) (Wal.decodeRecords fuel p) := by
  induction fuel generalizing p
  case zero =>
    obtain rfl : p = [] := List.length_eq_zero_iff.mp (Nat.le_zero.mp hf)
    exact .ok trivial
  case succ fuel ih =>
    cases p
    case nil => exact .ok trivial
    case cons b q =>
      rw [decodeRecords.eq_def, Wal.decodeRecords.eq_def]
      dsimp only
      apply (agrees_decodeRecord hroom hp).lifts
      intro r off rest h hoff _
      have hlen := h.length
      have hle := h.le
      dsimp only
      rw [h.sliceFrom]
      have hrest : rest.length ≤ n := by omega
      have hfuel : rest.length ≤ fuel := by omega
      apply (ih hrest hfuel).bind
      exact fun _ _ => .ok trivial

-- The number of records a control frame announces in its payload.
def announced (payload : Bytes) : Option Nat :=
  match payload with
  | [] => none
  | b :: p =>
    if b = envelopeTag then do
      let (schema, p) ← uvarint p
      if schema ≠ Schema.perCf.code ∧ schema ≠ Schema.unified.code then none
      else
        let (count, p) ← uvarint p
        if leadsControl p ∧ count ≠ 0 then some count else none
    else none

def Granted (host : Host) (payload : Bytes) : Prop :=
  ∀ count ∈ announced payload, rawSize * count < 2 ^ 63 ∧ host.grants (rawSize * count) = true

def Ends : Result α → Prop
  | .ok _ => True
  | .error (.error _) => True
  | .error _ => False

theorem Ends.bind (h : Ends x) (hf : ∀ a, x = .ok a → Ends (f a)) :
    Ends (x >>= f) := by
  cases x
  case error e => cases e <;> exact h
  case ok a => exact hf a rfl

theorem Ends.guard [Decidable c] (h : ¬c → Ends x) :
    Ends (if c then .error (.error e) else x) := by
  split
  case isTrue => trivial
  case isFalse hc => exact h hc

theorem ends_slice (hi : i ≤ j) (hj : j ≤ p.length) : Ends (slice p i j) := by
  rw [slice, if_pos ⟨hi, hj⟩]
  trivial

theorem Lifts.ends (h : Lifts P x y) : Ends x := by
  cases h <;> trivial

theorem field_of_none {read : Bytes → Option (α × Bytes)} {p : Bytes} (h : read p = none) (text : String) :
    field read text p 0 = .error (.error (.corruption text)) := by
  rw [field, (At.zero p).sliceFrom]
  change lift (required text (read p)) >>= _ = _
  rw [h]
  rfl

theorem field_of_some {p rest : Bytes} {x : Nat} (h : uvarint p = some (x, rest)) (text : String) :
    ∃ off, At p off rest ∧ field uvarint text p 0 = .ok (x, off) := by
  have hf := agrees_field takes_uvarint text (At.zero p)
  rw [h] at hf
  generalize field uvarint text p 0 = r at hf
  cases hf with
  | ok hat _ _ => exact ⟨_, hat, rfl⟩

theorem decodeEnvelope_cases (hroom : host.Holds n) (hn : n < 2 ^ 32) {q : Bytes} (hq : q.length ≤ n) :
    Lifts (fun _ => True) (decodeEnvelope host (envelopeTag :: q)) (Wal.decodeEnvelope q) ∧
        (∀ count ∈ announced (envelopeTag :: q), host.withCapacity rawSize count = .ok ()) ∨
      ∃ count ∈ announced (envelopeTag :: q), ∃ stop, host.withCapacity rawSize count = .error stop ∧
        decodeEnvelope host (envelopeTag :: q) = .error stop := by
  have hfirst : sliceFrom (envelopeTag :: q) 1 = .ok q := rfl
  have hnone : announced (envelopeTag :: q) = none →
      ∀ count ∈ announced (envelopeTag :: q), host.withCapacity rawSize count = .ok () := by
    intro ha count hc
    rw [ha] at hc
    exact absurd hc nofun
  cases hs : uvarint q
  case none =>
    have ha : announced (envelopeTag :: q) = none := by simp [announced, hs]
    simp only [decodeEnvelope, hfirst, Wal.decodeEnvelope, field_of_none hs, hs, required, bind, Except.bind]
    exact .inl ⟨.error _, hnone ha⟩
  case some x =>
    obtain ⟨schema, p⟩ := x
    obtain ⟨off, hat, hfield⟩ := field_of_some hs "wal: malformed envelope"
    by_cases hk : schema ≠ Schema.perCf.code ∧ schema ≠ Schema.unified.code
    case pos =>
      have ha : announced (envelopeTag :: q) = none := by simp [announced, hs, hk]
      simp only [decodeEnvelope, hfirst, Wal.decodeEnvelope, hfield, hs, required, bind, Except.bind, if_pos hk]
      exact .inl ⟨.error _, hnone ha⟩
    cases hc : uvarint p
    case none =>
      have ha : announced (envelopeTag :: q) = none := by simp [announced, hs, hc]
      simp only [decodeEnvelope, hfirst, Wal.decodeEnvelope, hfield, hs, required, bind, Except.bind, if_neg hk,
        hat.sliceFrom, field_of_none hc, hc]
      exact .inl ⟨.error _, hnone ha⟩
    case some x =>
      obtain ⟨count, r⟩ := x
      obtain ⟨off', hat', hfield'⟩ := field_of_some hc "wal: malformed envelope"
      have hr : r.length ≤ n := by
        have hp := hat.length
        have hr := hat'.length
        omega
      simp only [decodeEnvelope, hfirst, Wal.decodeEnvelope, hfield, hs, required, bind, Except.bind, if_neg hk,
        hat.sliceFrom, hfield', hc, hat'.sliceFrom]
      by_cases hl : leadsControl r
      case neg =>
        have ha : announced (envelopeTag :: q) = none := by simp [announced, hs, hc, hl]
        rw [if_neg hl, if_neg hl]
        exact .inl ⟨lifts_decodeEnvelopeRecords hroom hr le_rfl, hnone ha⟩
      rw [if_pos hl, if_pos hl]
      by_cases h0 : count = 0
      case pos =>
        have ha : announced (envelopeTag :: q) = none := by simp [announced, hs, hc, h0]
        rw [if_pos h0, if_pos h0]
        exact .inl ⟨.error _, hnone ha⟩
      have ha : announced (envelopeTag :: q) = some count := by
        simp [announced, hs, hc, hk, hl, h0]
      rw [if_neg h0, if_neg h0]
      cases hw : host.withCapacity rawSize count
      case ok =>
        refine .inl ⟨(lifts_decodeControlFrame hroom hn hr h0 hw).bind fun _ _ => .ok trivial, ?_⟩
        intro count' hc'
        obtain rfl := Option.some.inj (ha.symm.trans hc')
        exact hw
      case error stop =>
        refine .inr ⟨count, ha, stop, hw, ?_⟩
        rw [decodeControlFrame, hw]
        rfl

theorem withCapacity_eq_ok :
    host.withCapacity rawSize count = .ok () ↔
      rawSize * count < 2 ^ 63 ∧ host.grants (rawSize * count) = true := by
  rw [Host.withCapacity, Host.request]
  split
  case isTrue hbig => exact iff_of_false nofun fun h => Nat.not_lt.mpr hbig h.left
  case isFalse hbig =>
    split
    case isTrue hg => exact iff_of_true rfl ⟨Nat.lt_of_not_le hbig, hg⟩
    case isFalse hng => exact iff_of_false nofun fun h => hng h.right

theorem not_ends_of_withCapacity (h : host.withCapacity rawSize count = .error stop) :
    ¬ Ends (.error stop : Result α) := by
  rw [Host.withCapacity, Host.request] at h
  split at h
  case isTrue => exact Except.error.inj h ▸ id
  split at h
  case isTrue => exact absurd h nofun
  case isFalse => exact Except.error.inj h ▸ id

-- Decoding a payload ends with records or an error exactly if the buffer that a control frame asks for
-- by its announced count can be had.
theorem decodeFramePayload_ends_iff (host : Host) (payload : Bytes) (hlen : payload.length < 2 ^ 32)
    (hroom : host.Holds payload.length) :
    Ends (decodeFramePayload host payload) ↔ Granted host payload := by
  cases payload
  case nil => exact iff_of_true trivial fun count hc => by cases hc
  case cons b q =>
    rw [decodeFramePayload]
    by_cases hb : b = envelopeTag
    case neg =>
      have hna : announced (b :: q) = none := by simp [announced, hb]
      rw [if_neg hb]
      refine iff_of_true (lifts_decodeRecords hroom le_rfl le_rfl).ends fun count hc => ?_
      rw [hna] at hc
      cases hc
    case pos =>
      subst hb
      rw [if_pos rfl]
      have hq : q.length ≤ (envelopeTag :: q).length := by simp
      obtain ⟨hl, hg⟩ | ⟨count, hc, stop, hw, hd⟩ := decodeEnvelope_cases hroom hlen hq
      · exact iff_of_true hl.ends fun count hc => withCapacity_eq_ok.mp (hg count hc)
      · rw [hd]
        refine iff_of_false (not_ends_of_withCapacity hw) fun hg => ?_
        cases hw.symm.trans (withCapacity_eq_ok.mpr (hg count hc))

-- The abort decision of a transaction, on a host that grants everything.
theorem decodeFramePayload_ends_decision :
    Ends (decodeFramePayload ⟨fun _ => true⟩ (Batch.decision .perCf (List.replicate 16 7) none).payload) ∧
      Granted ⟨fun _ => true⟩ (Batch.decision .perCf (List.replicate 16 7) none).payload := by
  have hg : Granted ⟨fun _ => true⟩ (Batch.decision .perCf (List.replicate 16 7) none).payload := by
    have ha : announced (Batch.decision .perCf (List.replicate 16 7) none).payload = some 1 := by decide +kernel
    intro count hc
    obtain rfl := Option.some.inj (ha.symm.trans hc)
    exact ⟨by decide, rfl⟩
  exact ⟨(decodeFramePayload_ends_iff _ _ (by decide +kernel) fun _ _ => rfl).mpr hg, hg⟩

-- A control frame of 12 bytes that announces `2 ^ 60` records.
def hugeCount : Bytes :=
  envelopeTag :: (appendUvarint Schema.perCf.code ++ (appendUvarint (2 ^ 60) ++ appendUvarint RecordKind.prepare.code))

-- Even with an allocator that grants everything the request is out of range.
theorem decodeFramePayload_panics :
    hugeCount.length = 12 ∧ decodeFramePayload ⟨fun _ => true⟩ hugeCount = .error .panic ∧
      ¬ Ends (decodeFramePayload ⟨fun _ => true⟩ hugeCount) := by
  have hd : decodeFramePayload ⟨fun _ => true⟩ hugeCount = .error .panic := by decide +kernel
  refine ⟨by decide +kernel, hd, ?_⟩
  rw [hd]
  exact id

end OndaDb.Wal.Checked

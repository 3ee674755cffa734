import OndaDb.Wal.Session

namespace OndaDb.Wal

open Encoding Session List

variable {crc : Bytes → UInt32} {id : SegmentId} {cap : Nat}

theorem length_encodeSegmentHeader : (encodeSegmentHeader crc id).length = Segment.headerLen := by
  simp [encodeSegmentHeader, Segment.magic, Segment.headerLen, putU32, putU64]

theorem layoutByte_known (id : SegmentId) : ¬ (id.layoutByte ≠ 1 ∧ id.layoutByte ≠ 2) := by
  rcases id with ⟨_ | _, g⟩
  · exact fun h => h.1 rfl
  · exact fun h => h.2 rfl

theorem checkSegmentHead_encode (n : Nat) :
    checkSegmentHead crc (encodeSegmentHeader crc id) (Segment.headerLen + n) id = .ok .valid := by
  have hmagic : (encodeSegmentHeader crc id).take 8 = Segment.magic := by
    simp [encodeSegmentHeader, Segment.magic]
  have hversion : readLe (((encodeSegmentHeader crc id).drop 8).take 4) = Segment.version := by
    simp [encodeSegmentHeader, Segment.magic, putU32, putLe, readLe, Segment.version]
  have hcrc : readLe (((encodeSegmentHeader crc id).drop 28).take 4) =
      (crc ((encodeSegmentHeader crc id).take 28)).toNat := by
    simp only [encodeSegmentHeader]
    rw [drop_left' (by simp [Segment.magic, putU32, putU64]),
      take_left' (by simp [Segment.magic, putU32, putU64]), take_of_length_le (by simp [putU32]),
      putU32, readLe_putLe]
    exact Nat.mod_eq_of_lt (UInt32.toNat_lt _)
  have hreserved : ¬ ((((encodeSegmentHeader crc id).drop 13).take 3).any (· ≠ 0) ∨
      (((encodeSegmentHeader crc id).drop 24).take 4).any (· ≠ 0)) := by
    simp [encodeSegmentHeader, Segment.magic, putU32, putU64, putLe]
  have hlayout : ((encodeSegmentHeader crc id).drop 12).headD 0 = id.layoutByte := by
    simp [encodeSegmentHeader, Segment.magic, putU32, putLe]
  have hgen : readLe (((encodeSegmentHeader crc id).drop 16).take 8) = id.generation.toNat := by
    have : ((encodeSegmentHeader crc id).drop 16).take 8 = putLe 8 id.generation.toNat := by
      simp [encodeSegmentHeader, Segment.magic, putU32, putU64, putLe]
    rw [this, readLe_putLe]
    exact Nat.mod_eq_of_lt id.generation.toNat_lt
  simp only [checkSegmentHead, hmagic, hversion, hcrc, hlayout, hgen, length_encodeSegmentHeader]
  rw [if_neg (by simp [Segment.headerLen]), if_neg (by simp), if_neg (by simp), if_neg (by simp),
    if_neg (by simp), if_neg hreserved, if_neg (layoutByte_known id), if_neg (by simp),
    if_neg (by simp)]

theorem replayFile_header (body : Bytes) :
    replayFile crc id (encodeSegmentHeader crc id ++ body) = replayFrames crc body := by
  simp only [replayFile, length_append, length_encodeSegmentHeader, checkSegmentHead_encode,
    take_left' length_encodeSegmentHeader, drop_left' length_encodeSegmentHeader, ok_bind]

theorem replayFrames_none (h : nextFrame crc b = none) : replayFrames crc b = .ok [] := by
  rw [replayFrames, Framing.scan_of_none (F := framing crc) h]
  rfl

def frames (crc : Bytes → UInt32) (l : List Append) : Bytes :=
  l.flatMap (bytes crc)

theorem frames_append (l l' : List Append) : frames crc (l ++ l') = frames crc l ++ frames crc l' :=
  flatMap_append

theorem frames_eq (l : List Append) :
    frames crc l = (l.map fun a => a.batch.payload).flatMap (framing crc).encode := by
  rw [frames, flatMap_map]
  rfl

def Append.Fits (a : Append) : Prop :=
  a.batch.payload.length < 2 ^ 32

-- A stripe on disk: the header, the frames of `ws`, and a torn frame `t`; the frames of `bs` wait
-- in its buffer, never behind a torn frame.
structure Stripe.Layout (crc : Bytes → UInt32) (id : SegmentId) (cap : Nat) (st : Stripe)
    (ws bs : List Append) (t : Bytes) : Prop where
  file : st.file = encodeSegmentHeader crc id ++ (frames crc ws ++ t)
  buffer : st.handle.getD [] = frames crc bs
  torn : (framing crc).Torn t
  waiting : t ≠ [] → bs = []
  direct : cap = 0 → bs = []
  fits : ∀ a ∈ ws ++ bs, a.Fits

def Stripe.Holds (crc : Bytes → UInt32) (id : SegmentId) (cap : Nat) (st : Stripe)
    (done : List Append) : Prop :=
  ∃ ws bs t, done = ws ++ bs ∧ st.Layout crc id cap ws bs t

namespace Stripe

variable {st : Stripe} {ws bs done : List Append} {t : Bytes} {a : Append}

theorem Layout.scan (h : st.Layout crc id cap ws bs t) :
    (framing crc).scan (st.file.drop Segment.headerLen) = (ws.map fun a => a.batch.payload, t) := by
  rw [h.file, drop_left' length_encodeSegmentHeader, frames_eq]
  refine Framing.scan_log ?_ h.torn
  intro p hp
  obtain ⟨a, ha, rfl⟩ := mem_map.mp hp
  exact h.fits a (by simp [ha])

theorem Layout.torn_eq_nil (h : st.Layout crc id cap ws bs t) (hw : Whole crc st.file) : t = [] := by
  have := h.scan
  rw [Whole, this] at hw
  exact hw

theorem Layout.flush (h : st.Layout crc id cap ws bs t) :
    (Stripe.mk (st.file ++ st.handle.getD []) (some [])).Layout crc id cap (ws ++ bs) [] t := by
  have hbs : frames crc ws ++ t ++ frames crc bs = frames crc (ws ++ bs) ++ t := by
    by_cases ht : t = []
    · rw [ht, append_nil, append_nil, frames_append]
    · rw [h.waiting ht]
      simp [frames]
  constructor
  case file => rw [h.file, h.buffer, append_assoc, hbs]
  case buffer => rfl
  case torn => exact h.torn
  case waiting => exact fun _ => rfl
  case direct => exact fun _ => rfl
  case fits => simpa using h.fits

theorem Holds.flush {file : Bytes} {buf : Bytes} (h : (mk file (some buf)).Holds crc id cap done) :
    (mk (file ++ buf) (some [])).Holds crc id cap done := by
  obtain ⟨ws, bs, t, rfl, h⟩ := h
  exact ⟨ws ++ bs, [], t, by simp, h.flush⟩

theorem Holds.close {file : Bytes} (h : (mk file (some [])).Holds crc id cap done) :
    (mk file none).Holds crc id cap done := by
  obtain ⟨ws, bs, t, rfl, h⟩ := h
  exact ⟨ws, bs, t, rfl, h.file, h.buffer, h.torn, h.waiting, h.direct, h.fits⟩

theorem Holds.write {file : Bytes} (h : (mk file (some [])).Holds crc id cap done) (hw : Whole crc file)
    (hl : ∀ a ∈ l, a.Fits) :
    (mk (file ++ frames crc l) (some [])).Holds crc id cap (done ++ l) := by
  obtain ⟨ws, bs, t, rfl, h⟩ := h
  have h' := h.flush
  obtain rfl := h.torn_eq_nil hw
  refine ⟨ws ++ bs ++ l, [], [], by simp, ?_⟩
  constructor
  case file =>
    have := h'.file
    simp only [Option.getD_some, append_nil] at this
    simp only [this, frames_append, append_nil, append_assoc]
  case buffer => rfl
  case torn => exact .inl rfl
  case waiting => exact fun _ => rfl
  case direct => exact fun _ => rfl
  case fits =>
    intro b hb
    rw [append_nil, mem_append] at hb
    exact hb.elim (h.fits b) (hl b)

theorem Holds.coalesce {file pending : Bytes} (h : (mk file (some pending)).Holds crc id cap done)
    (hcap : cap ≠ 0) (hw : Whole crc file) (ha : a.Fits) :
    (mk file (some (pending ++ bytes crc a))).Holds crc id cap (done ++ [a]) := by
  obtain ⟨ws, bs, t, rfl, h⟩ := h
  obtain rfl := h.torn_eq_nil hw
  refine ⟨ws, bs ++ [a], [], by simp, ?_⟩
  constructor
  case file => exact h.file
  case buffer =>
    have := h.buffer
    simp only [Option.getD_some] at this
    simp [this, frames]
  case torn => exact h.torn
  case waiting => exact fun ht => absurd rfl ht
  case direct => exact fun hc => absurd hc hcap
  case fits =>
    intro b hb
    rw [← append_assoc, mem_append, mem_singleton] at hb
    rcases hb with hb | rfl
    · exact h.fits b hb
    · exact ha

theorem Holds.tear {file : Bytes} (h : (mk file (some [])).Holds crc id cap done) {n : Nat}
    (hn : n < (bytes crc a).length) (hw : n = 0 ∨ Whole crc file) (ha : a.Fits) :
    (mk (file ++ (bytes crc a).take n) (some [])).Holds crc id cap done := by
  obtain ⟨ws, bs, t, rfl, h⟩ := h
  by_cases h0 : n = 0
  · subst h0
    exact ⟨ws, bs, t, rfl, by simpa using h.file, h.buffer, h.torn, h.waiting, h.direct, h.fits⟩
  · have h' := h.flush
    obtain rfl := h.torn_eq_nil (hw.resolve_left h0)
    refine ⟨ws ++ bs, [], (bytes crc a).take n, by simp, ?_⟩
    constructor
    case file =>
      have := h'.file
      simp only [Option.getD_some, append_nil] at this
      simp [this]
    case buffer => rfl
    case torn =>
      refine .inr ⟨a.batch.payload, ha, take_prefix _ _, fun he => ?_⟩
      have : ((bytes crc a).take n).length = (bytes crc a).length := congrArg length he
      rw [length_take] at this
      omega
    case waiting => exact fun _ => rfl
    case direct => exact fun _ => rfl
    case fits => simpa using h.fits

theorem mapM_decode (l : List Append) :
    (l.map fun a => a.batch.payload).mapM decodeFramePayload = .ok (l.map Append.replayed) := by
  induction l with
  | nil => rfl
  | cons a l ih =>
    rw [map_cons, mapM_cons, Batch.decode_payload a.valid, ih]
    rfl

theorem Layout.replay (h : st.Layout crc id cap ws bs t) :
    replayFile crc id st.file = .ok (ws.flatMap Append.replayed) := by
  have := h.scan
  rw [h.file, drop_left' length_encodeSegmentHeader] at this
  rw [h.file, replayFile_header, replayFrames, this, mapM_decode]
  simp [flatMap_def]

theorem Holds.replay (h : st.Holds crc id cap done) :
    replayFile crc id (st.file ++ st.handle.getD []) = .ok (done.flatMap Append.replayed) := by
  obtain ⟨ws, bs, t, rfl, h⟩ := h
  exact h.flush.replay

end Stripe

def Stored (crc : Bytes → UInt32) (id : SegmentId) (cap : Nat) (stripes : List Stripe)
    (acked : List Append) : Prop :=
  ∃ dones, List.Forall₂ (Stripe.Holds crc id cap) stripes dones ∧ acked.Perm dones.flatten

section Lists

variable {α β : Type} {R : α → List β → Prop} {l₁ : List α} {l₂ : List (List β)}

theorem forall₂_set (h : List.Forall₂ R l₁ l₂) (hk : l₁[k]? = some x) (hx : ∀ d, R x d → R x' (d ++ l)) :
    ∃ l₂', List.Forall₂ R (l₁.set k x') l₂' ∧ (l₂.flatten ++ l).Perm l₂'.flatten := by
  induction h generalizing k
  case nil => simp at hk
  case cons a b l₁ l₂ hab hl ih =>
    cases k
    case zero =>
      obtain rfl : a = x := by simpa using hk
      refine ⟨(b ++ l) :: l₂, .cons (hx b hab) hl, ?_⟩
      simp only [flatten_cons, append_assoc]
      exact List.Perm.append_left b perm_append_comm
    case succ k =>
      obtain ⟨l₂', h', hp⟩ := ih (k := k) (by simpa using hk)
      refine ⟨b :: l₂', .cons hab h', ?_⟩
      simp only [flatten_cons, append_assoc]
      exact List.Perm.append_left b hp

end Lists

variable {stripes : List Stripe} {acked : List Append}

theorem Stored.set (h : Stored crc id cap stripes acked) (hk : stripes[k]? = some st)
    (hst : ∀ d, st.Holds crc id cap d → st'.Holds crc id cap (d ++ l)) :
    Stored crc id cap (stripes.set k st') (acked ++ l) := by
  obtain ⟨dones, hd, hp⟩ := h
  obtain ⟨dones', hd', hp'⟩ := forall₂_set hd hk hst
  exact ⟨dones', hd', (hp.append_right l).trans hp'⟩

theorem Stored.set_same (h : Stored crc id cap stripes acked) (hk : stripes[k]? = some st)
    (hst : ∀ d, st.Holds crc id cap d → st'.Holds crc id cap d) :
    Stored crc id cap (stripes.set k st') acked := by
  have hst' : ∀ d, st.Holds crc id cap d → st'.Holds crc id cap (d ++ []) := fun d hd => by
    simpa using hst d hd
  have := h.set hk hst'
  rwa [append_nil] at this

theorem Stored.holds (h : Stored crc id cap stripes acked) {k : Nat} (hk : stripes[k]? = some st) :
    ∃ d, st.Holds crc id cap d := by
  obtain ⟨dones, hd, -⟩ := h
  have hmem := mem_of_getElem? hk
  clear hk
  induction hd
  case nil => simp at hmem
  case cons st' d _ _ hst _ ih =>
    rcases mem_cons.mp hmem with rfl | hmem
    · exact ⟨d, hst⟩
    · exact ih hmem

theorem Stored.pending_eq_nil (h : Stored crc id 0 stripes acked) {k : Nat}
    (hk : stripes[k]? = some ⟨file, some pending⟩) : pending = [] := by
  obtain ⟨d, ws, bs, t, -, hl⟩ := h.holds hk
  have := hl.buffer
  rw [hl.direct rfl] at this
  exact this

theorem Stored.delivers (h : Stored crc id cap stripes acked) :
    ∃ recs, Log.replay crc id (stripes.map fun st => st.file ++ st.handle.getD []) = .ok recs ∧
      recs.Perm (acked.flatMap Append.replayed) := by
  obtain ⟨dones, hd, hp⟩ := h
  have : (stripes.map fun st => st.file ++ st.handle.getD []).mapM (replayFile crc id) =
      .ok (dones.map fun d => d.flatMap Append.replayed) := by
    clear hp
    induction hd
    case nil => rfl
    case cons st d _ _ hst _ ih =>
      rw [map_cons, mapM_cons, hst.replay, ih]
      rfl
  refine ⟨(dones.map fun d => d.flatMap Append.replayed).flatten, ?_, ?_⟩
  · rw [Log.replay, this]
    rfl
  · have hf : (dones.map fun d => d.flatMap Append.replayed).flatten =
        dones.flatten.flatMap Append.replayed := by
      simp [flatMap_def, flatten_flatten, Function.comp_def]
    rw [hf]
    exact hp.symm.flatMap_right _

namespace Log

variable {w w' : Log} {k : Nat} {fault : Fault} {a : Append}

structure Frame (w w' : Log) : Prop where
  sync : w'.sync = w.sync
  bufCap : w'.bufCap = w.bufCap
  queue : w'.queue = w.queue

theorem Frame.trans (h : Frame w w') (h' : Frame w' w'') : Frame w w'' :=
  ⟨h'.sync.trans h.sync, h'.bufCap.trans h.bufCap, h'.queue.trans h.queue⟩

theorem flushStripe_frame (w : Log) (k : Nat) (fault : Fault) :
    Frame w (w.flushStripe k fault).1 := by
  simp only [flushStripe]
  split
  case h_1 => split <;> exact ⟨rfl, rfl, rfl⟩
  case h_2 => exact ⟨rfl, rfl, rfl⟩

theorem place_frame (w : Log) (k : Nat) (buf : Bytes) (fault : Fault) :
    Frame w (w.place k buf fault).1 := by
  simp only [place]
  split
  case h_1 => split <;> exact ⟨rfl, rfl, rfl⟩
  case h_2 => exact ⟨rfl, rfl, rfl⟩

theorem submitDirect_frame (w : Log) (k : Nat) (buf : Bytes) (flushFault fault : Fault) :
    Frame w (w.submitDirect k buf flushFault fault).1 := by
  simp only [submitDirect]
  split
  case isFalse => exact place_frame w k buf fault
  have h := flushStripe_frame w k flushFault
  rcases hf : w.flushStripe k flushFault with ⟨w', _ | _⟩ <;> rw [hf] at h
  · exact h
  · exact h.trans (place_frame w' k buf fault)

theorem flushGroup_frame (w : Log) (batch : List Bytes) (fault : Option (Nat × Nat)) (fails : Bool) :
    Frame w (w.flushGroup batch fault fails).1 := by
  simp only [flushGroup]
  split
  case h_1 =>
    split
    case h_1 => split <;> exact ⟨rfl, rfl, rfl⟩
    case h_2 => exact ⟨rfl, rfl, rfl⟩
  case h_2 => exact ⟨rfl, rfl, rfl⟩

theorem closeStripe_frame (w : Log) (k : Nat) (fault : Fault) : Frame w (w.closeStripe k fault) := by
  have h := flushStripe_frame w k fault
  simp only [closeStripe]
  split
  case h_1 => exact h.trans ⟨rfl, rfl, rfl⟩
  case h_2 => exact h

theorem flushStripe_stored (k : Nat) (fault : Fault) (h : Stored crc id cap w.stripes acked) :
    (∃ e, (w.flushStripe k fault).2 = .error e ∧ (w.flushStripe k fault).1.poisoned = true) ∨
      (w.flushStripe k fault).2 = .ok () ∧ Stored crc id cap (w.flushStripe k fault).1.stripes acked ∧
        ∀ file pending, (w.flushStripe k fault).1.stripes[k]? = some ⟨file, some pending⟩ →
          pending = [] := by
  simp only [flushStripe]
  split
  case h_1 file b buf hk =>
    cases fault
    case some n => exact .inl ⟨_, rfl, rfl⟩
    case none =>
      refine .inr ⟨rfl, h.set_same hk fun d hd => hd.flush, fun file pending hp => ?_⟩
      have hlt := (List.getElem?_eq_some_iff.mp hk).1
      simp only [writeAll, setStripe, getElem?_set_self hlt, Option.some.injEq, Stripe.mk.injEq] at hp
      exact hp.2.symm
  case h_2 hno =>
    refine .inr ⟨rfl, h, fun file pending hp => ?_⟩
    cases pending
    case nil => rfl
    case cons b buf => exact absurd hp (hno file b buf)

-- What was buffered stood behind whole frames, and now stands among them.
theorem flushStripe_whole (h : Stored crc id cap w.stripes acked)
    (hk : w.stripes[k]? = some ⟨file, some pending⟩) (hp : pending ≠ [])
    (hok : (w.flushStripe k fault).2 = .ok ()) {st : Stripe}
    (hst : (w.flushStripe k fault).1.stripes[k]? = some st) : Whole crc st.file := by
  obtain ⟨d, ws, bs, t, -, hl⟩ := h.holds hk
  obtain ⟨b, buf, rfl⟩ := exists_cons_of_ne_nil hp
  have hbs : bs ≠ [] := by
    rintro rfl
    exact hp hl.buffer
  have ht : t = [] := by_contra fun ht => hbs (hl.waiting ht)
  subst ht
  simp only [flushStripe, hk] at hok hst
  cases fault
  case some n => exact absurd hok (by simp [writeAll])
  case none =>
    have hlt := (List.getElem?_eq_some_iff.mp hk).1
    simp only [writeAll, setStripe, getElem?_set_self hlt, Option.some.injEq] at hst
    subst hst
    have := hl.flush.scan
    simp only [Option.getD_some] at this
    simp [Whole, this]

-- What an append leaves, by its answer: `l` is stored when it is acknowledged, and nothing when it
-- is refused, unless the database is poisoned.
structure Settles (crc : Bytes → UInt32) (id : SegmentId) (cap : Nat) (acked l : List Append)
    (r : Log × Except OndaError Unit) : Prop where
  ok : r.1.poisoned = true ∨ (r.2 = .ok () → Stored crc id cap r.1.stripes (acked ++ l))
  error : r.1.poisoned = true ∨ ∀ e, r.2 = .error e → Stored crc id cap r.1.stripes acked

theorem place_settles (h : Stored crc id w.bufCap w.stripes acked) (ha : a.Fits)
    (hp : w.coalesces (bytes crc a) = false → ∀ file pending,
      w.stripes[k]? = some ⟨file, some pending⟩ → pending = [])
    (hc : ∀ st ∈ w.stripes[k]?, if w.coalesces (bytes crc a) then Whole crc st.file
      else (∀ n ∈ fault, n < (bytes crc a).length) ∧ (fault = some 0 ∨ Whole crc st.file)) :
    Settles crc id w.bufCap acked [a] (w.place k (bytes crc a) fault) := by
  simp only [place]
  split
  case h_2 => exact ⟨.inr fun h => by simp at h, .inr fun _ _ => h⟩
  case h_1 file pending hk =>
    replace hc := hc _ hk
    split
    case isTrue hco =>
      have hcap : w.bufCap ≠ 0 := by
        simp only [coalesces, decide_eq_true_eq] at hco
        exact hco.1
      rw [if_pos hco] at hc
      exact ⟨.inr fun _ => h.set hk fun d hd => hd.coalesce hcap hc ha, .inr fun e he => by simp at he⟩
    case isFalse hco =>
      obtain rfl := hp (by simpa using hco) _ _ hk
      rw [if_neg hco] at hc
      cases fault
      case none =>
        have hw := hc.2.resolve_left (by simp)
        refine ⟨.inr fun _ => h.set hk fun d hd => ?_, .inr fun e he => by simp [writeAll] at he⟩
        have := hd.write (l := [a]) hw (by simpa using ha)
        rwa [frames, flatMap_singleton] at this
      case some n =>
        have hn := hc.1 n rfl
        have hw : n = 0 ∨ Whole crc file := hc.2.imp_left fun h0 => Option.some.inj h0
        exact ⟨.inr fun h => by simp [writeAll] at h, .inr fun _ _ => h.set_same hk fun d hd => hd.tear hn hw ha⟩

theorem pending_eq_nil (h : Stored crc id w.bufCap w.stripes acked) {buf : Bytes}
    (ho : w.overflows k buf = false) (hco : w.coalesces buf = false)
    (hk : w.stripes[k]? = some ⟨file, some pending⟩) : pending = [] := by
  by_cases hcap : w.bufCap = 0
  · rw [hcap] at h
    exact h.pending_eq_nil hk
  · simp only [overflows, hk, decide_eq_false_iff_not, coalesces] at ho hco
    by_contra hne
    have := length_pos_iff.mpr hne
    have hge : w.bufCap ≤ buf.length := not_lt.mp fun hlt => hco ⟨hcap, hlt⟩
    exact ho ⟨hcap, hne, by omega⟩

theorem submitDirect_settles (h : Stored crc id w.bufCap w.stripes acked) (ha : a.Fits)
    (hc : ∀ st ∈ w.stripes[k]?, if w.coalesces (bytes crc a) then Whole crc st.file
      else (∀ n ∈ fault, n < (bytes crc a).length) ∧ (fault = some 0 ∨ Whole crc st.file))
    (flushFault : Fault) :
    Settles crc id w.bufCap acked [a] (w.submitDirect k (bytes crc a) flushFault fault) := by
  simp only [submitDirect]
  split
  case isFalse ho =>
    exact place_settles h ha (fun hco _ _ hk => pending_eq_nil h (by simpa using ho) hco hk) hc
  case isTrue ho =>
    have hcap := (flushStripe_frame w k flushFault).bufCap
    rcases flushStripe_stored k flushFault h with ⟨e, he, hpo⟩ | ⟨hok, hs, hnil⟩
    · rcases hf : w.flushStripe k flushFault with ⟨w', r⟩
      rw [hf] at he hpo
      simp only at he hpo
      subst he
      exact ⟨.inl hpo, .inl hpo⟩
    · have hwhole : ∀ st ∈ (w.flushStripe k flushFault).1.stripes[k]?, Whole crc st.file := by
        intro st hst
        simp only [overflows] at ho
        split at ho
        case h_1 file pending hk =>
          simp only [decide_eq_true_eq] at ho
          exact flushStripe_whole h hk ho.2.1 hok hst
        case h_2 => simp at ho
      have hlen : ∀ st ∈ w.stripes[k]?, w.coalesces (bytes crc a) = false →
          ∀ n ∈ fault, n < (bytes crc a).length := by
        intro st hst hco
        have := hc st hst
        rw [hco] at this
        exact this.1
      rcases hf : w.flushStripe k flushFault with ⟨w', r⟩
      rw [hf] at hok hs hnil hwhole hcap
      simp only at hok hs hnil hwhole hcap
      subst hok
      have hco : w'.coalesces (bytes crc a) = w.coalesces (bytes crc a) := by
        simp only [coalesces, hcap]
      rw [← hcap] at hs ⊢
      refine place_settles hs ha (fun _ => hnil) fun st hst => ?_
      have hk : ∃ st, w.stripes[k]? = some st := by
        cases hk : w.stripes[k]?
        case some st => exact ⟨st, rfl⟩
        case none => simp [overflows, hk] at ho
      obtain ⟨st₀, hk⟩ := hk
      rw [hco]
      split
      case isTrue => exact hwhole st hst
      case isFalse hn => exact ⟨hlen st₀ hk (by simpa using hn), .inr (hwhole st hst)⟩

theorem writeGroup_none (file : Bytes) (l : List Append) {fault : Option (Nat × Nat)}
    (hf : ∀ p ∈ fault, l.length ≤ p.1) :
    writeGroup file (l.map (bytes crc)) fault = (file ++ frames crc l, .ok ()) := by
  induction l generalizing file fault with
  | nil => simp [writeGroup, frames]
  | cons a l ih =>
    rcases fault with _ | ⟨_ | i, n⟩
    · rw [map_cons, writeGroup, ih _ (by simp)]
      simp [frames]
    · simp at hf
    · have hi : ∀ p ∈ some (i, n), l.length ≤ p.1 := by simpa using hf
      rw [map_cons, writeGroup, ih _ hi]
      simp [frames]

theorem flushGroup_settles (h : Stored crc id 0 w.stripes acked) {l : List Append}
    (hl : ∀ a ∈ l, a.Fits) (hne : l ≠ []) {fault : Option (Nat × Nat)}
    (hc : ∀ st ∈ w.stripes[(0 : Nat)]?,
      (∃ a n, l.head? = some a ∧ fault = some (0, n) ∧ n < (bytes crc a).length ∧
        (n = 0 ∨ Whole crc st.file)) ∨ (∀ p ∈ fault, l.length ≤ p.1) ∧ Whole crc st.file)
    (syncFails : Bool) :
    Settles crc id 0 acked l (w.flushGroup (l.map (bytes crc)) fault syncFails) := by
  simp only [flushGroup]
  split
  case h_2 => exact ⟨.inr fun h => by simp at h, .inr fun _ _ => h⟩
  case h_1 file pending hk =>
    obtain rfl := h.pending_eq_nil hk
    rcases hc _ hk with ⟨a, n, ha, rfl, hn, hw⟩ | ⟨hf, hw⟩
    · obtain ⟨l', rfl⟩ := head?_eq_some_iff.mp ha
      have hs := h.set_same hk fun d hd => hd.tear hn hw (hl a (by simp))
      exact ⟨.inr fun h => by simp [writeGroup, writeAll] at h, .inr fun _ _ => hs⟩
    · rw [writeGroup_none file l hf]
      have hs := h.set hk fun d hd => hd.write hw hl
      cases syncFails
      case false => exact ⟨.inr fun _ => hs, .inr fun e he => by simp at he⟩
      case true => exact ⟨.inl rfl, .inl rfl⟩

theorem closeStripe_stored (k : Nat) (fault : Fault) (h : Stored crc id cap w.stripes acked) :
    (w.closeStripe k fault).poisoned = true ∨ Stored crc id cap (w.closeStripe k fault).stripes acked := by
  simp only [closeStripe]
  rcases flushStripe_stored k fault h with ⟨e, -, hpo⟩ | ⟨-, hs, hnil⟩
  · split
    case h_1 => exact .inl hpo
    case h_2 => exact .inl hpo
  · split
    case h_2 => exact .inr hs
    case h_1 file handle hk =>
      refine .inr (hs.set_same hk fun d hd => ?_)
      cases handle
      case none => exact hd
      case some pending =>
        obtain rfl := hnil _ _ hk
        exact hd.close

end Log

namespace Session

variable {s s' : Session}

-- The stripes hold what was acknowledged; requests wait only where nothing is buffered.
structure Good (crc : Bytes → UInt32) (id : SegmentId) (s : Session) : Prop where
  stored : s.wal.poisoned = true ∨ Stored crc id s.wal.bufCap s.wal.stripes s.acked
  full : s.wal.sync = .full → s.wal.bufCap = 0
  queued : s.wal.queue ≠ [] → s.wal.sync = .full

theorem good_start (mode : SyncMode) (bufferBytes : Nat) :
    (start crc mode id bufferBytes).Good crc id := by
  refine ⟨.inr ⟨replicate (if mode = .full then 1 else Log.walStripes) [], ?_, ?_⟩, ?_, ?_⟩
  · have hst : (Stripe.mk (encodeSegmentHeader crc id) (some [])).Holds crc id
        (start crc mode id bufferBytes).wal.bufCap [] :=
      ⟨[], [], [], rfl, by simp [frames], rfl, .inl rfl, fun _ => rfl, fun _ => rfl, by simp⟩
    simp only [start, Log.open]
    generalize (if mode = .full then 1 else Log.walStripes) = n
    induction n with
    | zero => exact .nil
    | succ n ih => exact .cons hst ih
  · simp [start]
  · intro h
    simp only [start, Log.open] at h ⊢
    rw [if_pos h]
  · simp [start, Log.open]

theorem Good.answer (hg : s.Good crc id) (hr : Log.Settles crc id s.wal.bufCap s.acked l r)
    (hf : Log.Frame w r.1) (hcap : w.bufCap = s.wal.bufCap) (hsync : w.sync = s.wal.sync)
    (hq : w.queue = s.wal.queue ∨ w.queue = []) : (s.answer l r).Good crc id := by
  have hfull : r.1.sync = .full → r.1.bufCap = 0 := by
    rw [hf.sync, hf.bufCap, hcap, hsync]
    exact hg.full
  have hqueued : r.1.queue ≠ [] → r.1.sync = .full := by
    rw [hf.queue, hf.sync, hsync]
    rcases hq with hq | hq
    · exact hq ▸ hg.queued
    · exact fun h => absurd hq h
  have hcap' : r.1.bufCap = s.wal.bufCap := hf.bufCap.trans hcap
  rcases r with ⟨w', _ | _⟩
  case error e =>
    have hs := hr.error.imp_right fun h => h e rfl
    rw [← hcap'] at hs
    exact ⟨hs, hfull, hqueued⟩
  case ok =>
    have hs := hr.ok.imp_right fun h => h rfl
    rw [← hcap'] at hs
    exact ⟨hs, hfull, hqueued⟩

theorem Good.append (hg : s.Good crc id) (hp : s.wal.poisoned = false)
    (hc : s.Clean crc (.append thread a flushFault fault)) :
    (s.exec crc (.append thread a flushFault fault)).Good crc id := by
  have hs := hg.stored.resolve_left (by simp [hp])
  simp only [exec]
  split
  case isTrue => exact hg
  exact hg.answer (Log.submitDirect_settles hs hc.1 hc.2 flushFault) (Log.submitDirect_frame ..) rfl rfl
    (.inl rfl)

theorem Good.group (hg : s.Good crc id) (hp : s.wal.poisoned = false) {fault : Option (Nat × Nat)}
    {fails : Bool} (hc : s.Clean crc (.group fault fails)) :
    (s.exec crc (.group fault fails)).Good crc id := by
  have hs := hg.stored.resolve_left (by simp [hp])
  simp only [exec]
  split
  case isTrue => exact hg
  case isFalse hq =>
    have hcap := hg.full (hg.queued hq)
    obtain ⟨a, l, hal⟩ := exists_cons_of_ne_nil hq
    have hc' : ∀ st ∈ s.wal.stripes[(0 : Nat)]?,
        (∃ a n, s.wal.queue.head? = some a ∧ fault = some (0, n) ∧ n < (bytes crc a).length ∧
          (n = 0 ∨ Whole crc st.file)) ∨
          (∀ p ∈ fault, s.wal.queue.length ≤ p.1) ∧ Whole crc st.file := by
      intro st hst
      have hcl := hc.2 st hst a (by simp [hal])
      rcases fault with _ | ⟨_ | i, n⟩
      · exact .inr ⟨by simp, hcl⟩
      · exact .inl ⟨a, n, by simp [hal], rfl, hcl⟩
      · exact .inr ⟨by simpa using hcl.1, hcl.2⟩
    rw [hcap] at hs
    have hset := Log.flushGroup_settles (w := { s.wal with queue := [] }) hs hc.1 hq hc' fails
    rw [← hcap] at hset
    exact hg.answer hset (Log.flushGroup_frame ..) rfl rfl (.inr rfl)

theorem Good.exec (hg : s.Good crc id) (hp : s.wal.poisoned = false) (hc : s.Clean crc e) :
    (s.exec crc e).Good crc id := by
  have hs := hg.stored.resolve_left (by simp [hp])
  cases e
  case append => exact hg.append hp hc
  case group => exact hg.group hp hc
  case enqueue a =>
    simp only [Session.exec]
    split
    case isTrue hfull => exact ⟨hg.stored, hg.full, fun _ => hfull⟩
    case isFalse => exact hg
  case flush k fault =>
    have hf := Log.flushStripe_frame s.wal k fault
    refine ⟨?_, hf.sync ▸ hf.bufCap ▸ hg.full, hf.queue ▸ hf.sync ▸ hg.queued⟩
    rcases Log.flushStripe_stored k fault hs with ⟨e, -, hpo⟩ | ⟨-, hs', -⟩
    · exact .inl hpo
    · rw [← hf.bufCap] at hs'
      exact .inr hs'
  case fsync fails =>
    cases fails
    case false => exact hg
    case true => exact ⟨.inl rfl, hg.full, hg.queued⟩
  case close k fault =>
    have hf := Log.closeStripe_frame s.wal k fault
    refine ⟨?_, hf.sync ▸ hf.bufCap ▸ hg.full, hf.queue ▸ hf.sync ▸ hg.queued⟩
    have hs' := Log.closeStripe_stored k fault hs
    rw [← hf.bufCap] at hs'
    exact hs'

-- Where no write lands behind a torn frame and no refused frame lands whole, a log that is not
-- poisoned gives back the acknowledged appends.
theorem replay_delivers {mode : SyncMode} {bufferBytes : Nat}
    (h : Reachable (start crc mode id bufferBytes) (Step crc) s) (hp : s.wal.poisoned = false) :
    s.Delivers crc id := by
  have hg : s.Good crc id := by
    refine h.invariant (good_start mode bufferBytes) fun s s' hst hg => ?_
    obtain ⟨hp, e, hc, rfl⟩ := hst
    exact hg.exec hp hc
  exact (hg.stored.resolve_left (by simp [hp])).delivers

section Runs

def putOf (key : UInt8) : Append where
  batch := .legacy [⟨[key], [], 1, 0, .put⟩]
  valid := by
    intro r hr
    rw [List.mem_singleton] at hr
    subst hr
    exact ⟨⟨by simp, by simp, by simp, by simp⟩, by simp⟩

def segment : SegmentId := ⟨.perCf, 1⟩

def failedGroup (crc : Bytes → UInt32) : Session :=
  (((start crc .full segment 0).exec crc (.enqueue (putOf 1))).exec crc (.enqueue (putOf 2))).exec crc
    (.group (some (1, 0)) false)

def tornAppend (crc : Bytes → UInt32) : Session :=
  ((start crc .none segment 0).exec crc (.append 0 (putOf 1) none (some 3))).exec crc
    (.append 0 (putOf 2) none none)

def missedAppend (crc : Bytes → UInt32) : Session :=
  ((start crc .none segment 0).exec crc (.append 0 (putOf 1) none (some 0))).exec crc
    (.append 0 (putOf 2) none none)

theorem payload_putOf (key : UInt8) : (putOf key).batch.payload = [0, 1, 0, 1, key] := by
  simp [putOf, Batch.payload, encodeRecordBody, appendUvarint, Flags.normalized, Kind.tombstone]

theorem replay_delivers_missedAppend :
    Reachable (start (fun _ => 0) .none segment 0) (Step fun _ => 0) (missedAppend fun _ => 0) ∧
      (missedAppend fun _ => 0).Delivers (fun _ => 0) segment := by
  have hfits : ∀ key, (putOf key).batch.payload.length < 2 ^ 32 := by
    intro key
    simp [payload_putOf]
  have hfirst : (start (fun _ => 0) .none segment 0).Clean (fun _ => 0)
      (.append 0 (putOf 1) none (some 0)) := by
    refine ⟨hfits 1, fun st hst => ?_⟩
    rw [if_neg (by decide)]
    refine ⟨fun n hn => ?_, .inl rfl⟩
    obtain rfl := Option.some.inj hn
    simp [bytes, frame, putU32]
  have hsecond : ((start (fun _ => 0) .none segment 0).exec (fun _ => 0)
      (.append 0 (putOf 1) none (some 0))).Clean (fun _ => 0) (.append 0 (putOf 2) none none) := by
    refine ⟨hfits 2, fun st hst => ?_⟩
    rw [if_neg (by decide)]
    obtain rfl : Stripe.mk (encodeSegmentHeader (fun _ => 0) segment) (some []) = st :=
      Option.some.inj (by rw [← Option.mem_def.mp hst]; rfl)
    refine ⟨by simp, .inr ?_⟩
    rw [Whole, drop_of_length_le (by rw [length_encodeSegmentHeader])]
    exact congrArg Prod.snd (Framing.scan_of_none Framing.next_nil)
  have hr : Reachable (start (fun _ => 0) .none segment 0) (Step fun _ => 0)
      (missedAppend fun _ => 0) :=
    (Reachable.start.next ⟨rfl, _, hfirst, rfl⟩).next ⟨rfl, _, hsecond, rfl⟩
  exact ⟨hr, replay_delivers hr rfl⟩

-- Whatever the checksum is: an acknowledged append is lost behind a torn frame, and a refused one
-- comes back from a group that failed behind it; neither run poisons the database.
theorem replay_torn_and_failed (crc : Bytes → UInt32) :
    ((tornAppend crc).wal.poisoned = false ∧ (tornAppend crc).acked = [putOf 2] ∧
      Log.replay crc segment (tornAppend crc).wal.flushed = .ok [] ∧
      ¬ (tornAppend crc).Delivers crc segment) ∧
    (failedGroup crc).wal.poisoned = false ∧ (failedGroup crc).refused = [putOf 1, putOf 2] ∧
      Log.replay crc segment (failedGroup crc).wal.flushed = .ok (putOf 1).replayed ∧
      ¬ (failedGroup crc).Delivers crc segment := by
  have hnil : replayFile crc segment (encodeSegmentHeader crc segment) = .ok [] := by
    have : replayFile crc segment (encodeSegmentHeader crc segment ++ []) = replayFrames crc [] :=
      replayFile_header []
    rw [append_nil] at this
    rw [this, replayFrames_none rfl]
  have hlost : Log.replay crc segment (tornAppend crc).wal.flushed = .ok [] := by
    -- The length read across the two headers exceeds what is there.
    have htorn : nextFrame crc ((bytes crc (putOf 1)).take 3 ++ bytes crc (putOf 2)) = none := by
      simp [nextFrame, bytes, frame, payload_putOf, putU32, putLe, readLe, headerSize]
    have hfile : (tornAppend crc).wal.flushed =
        [encodeSegmentHeader crc segment ++ ((bytes crc (putOf 1)).take 3 ++ bytes crc (putOf 2)),
          encodeSegmentHeader crc segment, encodeSegmentHeader crc segment,
          encodeSegmentHeader crc segment] := by
      simp [tornAppend, start, Log.open, exec, stripeOf, Log.submitDirect, Log.overflows, Log.place,
        Log.coalesces, writeAll, Log.setStripe, answer, Log.flushed, Log.walStripes,
        replicate_succ]
    simp [hfile, Log.replay, replayFile_header, replayFrames_none htorn, hnil]
  have hkept : Log.replay crc segment (failedGroup crc).wal.flushed = .ok (putOf 1).replayed := by
    have hfile : (failedGroup crc).wal.flushed =
        [encodeSegmentHeader crc segment ++ bytes crc (putOf 1)] := by
      simp [failedGroup, start, Log.open, exec, Log.flushGroup, Log.writeGroup, writeAll,
        Log.setStripe, answer, Log.flushed]
    have hfits : (framing crc).Fits (putOf 1).batch.payload := by
      simp [framing, payload_putOf]
    have hscan : (framing crc).scan (bytes crc (putOf 1)) = ([(putOf 1).batch.payload], []) := by
      have hall : ∀ p ∈ [(putOf 1).batch.payload], (framing crc).Fits p := by simpa using hfits
      have := Framing.scan_log (t := []) hall (.inl rfl)
      rwa [flatMap_singleton, append_nil] at this
    simp [hfile, Log.replay, replayFile_header, replayFrames, hscan, Batch.decode_payload (putOf 1).valid]
    rfl
  refine ⟨⟨rfl, rfl, hlost, ?_⟩, rfl, rfl, hkept, ?_⟩
  · rintro ⟨recs, hr, hp⟩
    rw [hlost, Except.ok.injEq] at hr
    subst hr
    exact absurd hp.length_eq (by simp [show (tornAppend crc).acked = [putOf 2] from rfl, Append.replayed, putOf, Batch.replayed])
  · rintro ⟨recs, hr, hp⟩
    rw [hkept, Except.ok.injEq] at hr
    subst hr
    exact absurd hp.length_eq (by simp [show (failedGroup crc).acked = [] from rfl, Append.replayed, putOf, Batch.replayed])

theorem replay_loses_acked_keeps_refused :
    ((tornAppend fun _ => 0).wal.poisoned = false ∧ (tornAppend fun _ => 0).acked = [putOf 2] ∧
      Log.replay (fun _ => 0) segment (tornAppend fun _ => 0).wal.flushed = .ok [] ∧
      ¬ (tornAppend fun _ => 0).Delivers (fun _ => 0) segment) ∧
    (failedGroup fun _ => 0).wal.poisoned = false ∧ (failedGroup fun _ => 0).refused = [putOf 1, putOf 2] ∧
      Log.replay (fun _ => 0) segment (failedGroup fun _ => 0).wal.flushed = .ok (putOf 1).replayed ∧
      ¬ (failedGroup fun _ => 0).Delivers (fun _ => 0) segment :=
  replay_torn_and_failed fun _ => 0

end Runs

end Session

end OndaDb.Wal

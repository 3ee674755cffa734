import OndaDb.Prepared.Isolation
import OndaDb.Txn.Theorems.Validate

namespace OndaDb.Prepared.Session

open List

variable {I K V : Type} [DecidableEq I] [LinearOrder K] [ToString I] [ToString K]

structure Reserved (reg : Registry I K V) (id : I) (r : Request K V) : Prop where
  entry : ∃ e, reg.byId.lookup id = some e ∧ e.writes = r.writes
  keys : ∀ w ∈ r.writes, reg.ownerOf w.cf w.key = some id
  points : ∀ w ∈ r.writes, w.isRange = false

structure Sound (s : Session I K V) : Prop where
  spans : ∃ c, s.spans.Sound c
  marked : s.log.Marked s.spans
  below : ∀ e ∈ s.log, e.1 < s.nextSeq
  reserved : ∀ p ∈ s.prepared, Reserved s.registry p.1 p.2
  known : ∀ id e, s.registry.byId.lookup id = some e →
    ∃ p ∈ s.prepared, p.1 = id ∧ p.2.writes = e.writes
  snapshot : ∀ p ∈ s.prepared, p.2.readSeq < s.nextSeq
  isolated : ∀ p ∈ s.prepared, p.2.needsCheck → ∀ k ∈ validated p.2,
    s.log.Untouched k.1 k.2 p.2.readSeq

variable {s s' : Session I K V} {r : Request K V} {id : I} {ws : List (WriteEntry K V)}

omit [ToString I] [ToString K] in
theorem sound_start (capacity maxBytes : Nat) : (start capacity maxBytes : Session I K V).Sound where
  spans := ⟨_, SpanIndex.System.sound_new⟩
  marked := by simp [start, CommitLog.Marked]
  below := by simp [start]
  reserved := by simp [start]
  known := by simp [start, Registry.new]
  snapshot := by simp [start]
  isolated := by simp [start]

omit [DecidableEq I] in
theorem touches_eq_false_of_checkReservations (h : checkReservations reg ws = .ok ()) {w : WriteEntry K V}
    (hw : w ∈ ws) {cf : Nat} {key : K} {owner : I} (ho : reg.ownerOf cf key = some owner) :
    w.touches cf key = false := by
  have hmem : ⟨(cf, key), owner⟩ ∈ reg.byKey.entries := AList.mem_lookup_iff.mp ho
  have hne : reg.isEmpty = false := by
    rw [Registry.isEmpty, isEmpty_eq_false_iff]
    exact ne_nil_of_mem hmem
  rw [checkReservations, if_neg (by simp [hne])] at h
  have h := forM_eq_ok.mp h w hw
  rw [WriteEntry.touches, WriteEntry.writes, WriteEntry.covers]
  cases hop : w.op
  case point a v t k =>
    simp only [hop] at h
    by_contra hc
    simp only [Bool.or_false, decide_eq_false_iff_not, not_not] at hc
    simp [hc.1, hc.2, ho] at h
  case range a b =>
    simp only [hop] at h
    by_contra hc
    simp only [Bool.false_or, decide_eq_false_iff_not, not_not] at hc
    have : (reg.ownerInRange w.cf a b).isSome := by
      rw [Registry.ownerInRange, Option.isSome_map, find?_isSome]
      exact ⟨_, hmem, by simp [hc.1, hc.2.1, hc.2.2]⟩
    obtain ⟨hit, hhit⟩ := Option.isSome_iff_exists.mp this
    simp [hhit] at h

omit [ToString I] [ToString K] in
theorem Reserved.register (h : Reserved reg id r) (hid : e.id ≠ id)
    (ho : ∀ w ∈ e.writes, reg.ownerOf w.cf w.key = none) :
    Reserved (reg.register e) id r where
  entry := by
    obtain ⟨e', he, hw⟩ := h.entry
    refine ⟨e', ?_, hw⟩
    rw [Registry.register]
    exact (Map.lookup_insert_eq _ _ _).trans ((if_neg fun h => hid h.symm).trans he)
  keys := by
    intro w hw
    have hk := h.keys w hw
    rw [Registry.ownerOf, Registry.register, Registry.lookup_reserves, if_neg]
    · exact hk
    · rintro ⟨w', hw', heq⟩
      have := ho w' hw'
      rw [Registry.ownerOf, heq] at this
      rw [Registry.ownerOf, this] at hk
      exact absurd hk (by simp)
  __ := h

omit [ToString I] [ToString K] in
theorem Reserved.resolve (h : Reserved reg id r) (hid : id ≠ id') (hr : reg.resolve id' = some (e, reg')) :
    Reserved reg' id r := by
  obtain ⟨e', -, heq⟩ := Option.map_eq_some_iff.mp hr
  rw [Prod.mk.injEq] at heq
  obtain ⟨rfl, rfl⟩ := heq
  refine ⟨?_, fun w hw => ?_, h.points⟩
  · obtain ⟨e, he, hw⟩ := h.entry
    exact ⟨e, (Map.lookup_erase_eq _ _).trans ((if_neg hid).trans he), hw⟩
  · have hk := h.keys w hw
    rw [Registry.ownerOf] at hk
    rw [Registry.ownerOf, Registry.lookup_unreserves, if_neg]
    · exact hk
    · rintro ⟨-, hk'⟩
      rw [hk, Option.some.injEq] at hk'
      exact hid hk'

omit [ToString I] [ToString K] in
theorem Sound.isolated_commit (h : s.Sound) (hp : p ∈ s.prepared) (hn : p.2.needsCheck)
    (hw : ∀ w ∈ ws, ∀ w' ∈ p.2.writes, w.touches w'.cf w'.key = false)
    (hr : p.2.isolation = .serializable → ∀ k ∈ p.2.reads, ∀ w ∈ ws, w.touches k.1 k.2 = false) :
    ∀ k ∈ validated p.2, CommitLog.Untouched (CommitLog.stamp s.nextSeq ws ++ s.log) k.1 k.2 p.2.readSeq := by
  intro k hk
  refine (h.isolated p hp hn k hk).append (CommitLog.untouched_stamp fun w hws => ?_)
  rcases mem_append.mp hk with hk | hk
  · obtain ⟨w', hw', rfl⟩ := mem_map.mp hk
    exact hw w hws w' hw'
  · split at hk
    case isTrue hs => exact hr hs k hk w hws
    case isFalse => simp at hk

omit [ToString I] [ToString K] in
theorem Sound.records (h : s.Sound) (hi : s.Records ws i) :
    (∃ c, i.Sound c) ∧ CommitLog.Marked (CommitLog.stamp s.nextSeq ws ++ s.log) i ∧
      ∀ e ∈ CommitLog.stamp s.nextSeq ws ++ s.log, e.1 < s.nextSeq + ws.length := by
  obtain ⟨c, hc⟩ := h.spans
  refine ⟨⟨c, ?_⟩, h.marked.stamp hi.2.2, fun e he => ?_⟩
  · have hrun : Reachable s.spans SpanIndex.System.Step i := hi.1
    exact hrun.invariant hc fun _ _ hst h => h.step hst
  · rcases mem_append.mp he with he | he
    · exact (CommitLog.mem_stamp he).2.2
    · exact (h.below e he).trans_le (Nat.le_add_right ..)

omit [DecidableEq I] in
theorem checkOverlap_eq_ok {reg : Registry I K V} (h : checkOverlap reg ws = .ok ()) :
    ∀ w ∈ ws, reg.ownerOf w.cf w.key = none := by
  intro w hw
  have := forM_eq_ok.mp h w hw
  cases hown : reg.ownerOf w.cf w.key
  case none => rfl
  case some owner => simp [hown] at this

theorem checkPrepare_eq_ok (h : s.checkPrepare id r bytes = .ok ()) :
    r.hasRange = false ∧ r.validate s.log s.spans.index = .ok () ∧ s.registry.knows id = false ∧
      checkOverlap s.registry r.writes = .ok () := by
  simp only [checkPrepare] at h
  have h' := except_guard_eq_ok.mp h
  obtain ⟨hrange, h⟩ := h'
  obtain ⟨hv, h⟩ := except_seq_eq_ok.mp h
  obtain ⟨hk, h⟩ := except_guard_eq_ok.mp h
  obtain ⟨ho, -⟩ := except_seq_eq_ok.mp h
  refine ⟨?_, hv, ?_, ho⟩
  · by_contra hc
    simpa using hrange (by simpa using hc)
  · by_contra hc
    simpa using hk (by simpa using hc)

theorem Sound.prepare (h : s.Sound) {bytes gen : Nat} (hf : s.spans.floor ≤ r.readSeq)
    (hr : r.readSeq < s.nextSeq) (hc : s.checkPrepare id r bytes = .ok ()) :
    Sound { s with
      registry := s.registry.register ⟨id, r.writes, bytes, gen⟩
      prepared := (id, r) :: s.prepared } := by
  obtain ⟨hrange, hv, hk, ho⟩ := checkPrepare_eq_ok hc
  obtain ⟨c, hspans⟩ := h.spans
  have hpoint : ∀ w ∈ r.writes, w.isRange = false := by
    simpa [Request.hasRange] using hrange
  have hfree := checkOverlap_eq_ok ho
  have hnew : ∀ p ∈ s.prepared, id ≠ p.1 := by
    rintro p hp rfl
    obtain ⟨e, he, -⟩ := (h.reserved p hp).entry
    simp [Registry.knows, he] at hk
  constructor
  case spans => exact h.spans
  case marked => exact h.marked
  case below => exact h.below
  case reserved =>
    intro p hp
    rcases mem_cons.mp hp with rfl | hp
    · refine ⟨⟨_, AList.lookup_insert _, rfl⟩, fun w hw => ?_, hpoint⟩
      rw [Registry.ownerOf, Registry.register, Registry.lookup_reserves, if_pos ⟨w, hw, rfl⟩]
    · exact (h.reserved p hp).register (hnew p hp) hfree
  case known =>
    intro id' e he
    simp only [Registry.register] at he
    rw [Map.lookup_insert_eq] at he
    split at he
    case isTrue hid =>
      rw [Option.some.injEq] at he
      exact ⟨(id, r), by simp, hid.symm, by rw [← he]⟩
    obtain ⟨p, hp, h⟩ := h.known id' e he
    exact ⟨p, mem_cons_of_mem _ hp, h⟩
  case snapshot =>
    intro p hp
    rcases mem_cons.mp hp with rfl | hp
    · exact hr
    · exact h.snapshot p hp
  case isolated =>
    intro p hp hn k hk
    rcases mem_cons.mp hp with rfl | hp
    · rcases mem_append.mp hk with hk | hk
      · obtain ⟨w, hw, rfl⟩ := mem_map.mp hk
        exact Request.untouched_write hv hn h.marked hspans hf hw (hpoint w hw)
      · split at hk
        case isTrue hi => exact Request.untouched_read hv hi h.marked hspans hf hk
        case isFalse => simp at hk
    · exact h.isolated p hp hn k hk

theorem Sound.commit (h : s.Sound) {i : SpanIndex.System K} (hc : s.checkCommit r = .ok ())
    (hi : s.Records r.writes i) (hu : s.Undisturbed ⟨r.writes, none⟩) : (s.commit r.writes i).Sound := by
  obtain ⟨hres, -⟩ := except_seq_eq_ok.mp hc
  obtain ⟨hspans, hmarked, hbelow⟩ := h.records hi
  refine ⟨hspans, hmarked, hbelow, h.reserved, h.known, fun p hp => ?_, fun p hp hn => ?_⟩
  · exact (h.snapshot p hp).trans_le (Nat.le_add_right ..)
  · refine h.isolated_commit hp hn (fun w hw w' hw' => ?_) fun hs => hu p hp (by simp) hs
    exact touches_eq_false_of_checkReservations hres hw ((h.reserved p hp).keys w' hw')

omit [ToString I] [ToString K] in
theorem Sound.resolve (h : s.Sound) (hr : s.registry.resolve id = some (e, reg)) :
    Sound { s with registry := reg, prepared := s.prepared.filter (·.1 ≠ id) } := by
  have hmem : ∀ p ∈ s.prepared.filter (·.1 ≠ id), p ∈ s.prepared ∧ p.1 ≠ id := by
    intro p hp
    simpa using mem_filter.mp hp
  refine ⟨h.spans, h.marked, h.below, fun p hp => (h.reserved p (hmem p hp).1).resolve (hmem p hp).2 hr,
    fun id' e' he => ?_, fun p hp => h.snapshot p (hmem p hp).1, fun p hp => h.isolated p (hmem p hp).1⟩
  obtain ⟨e₀, -, heq⟩ := Option.map_eq_some_iff.mp hr
  rw [Prod.mk.injEq] at heq
  rw [← heq.2, Map.lookup_erase_eq] at he
  split at he
  case isTrue => simp at he
  case isFalse hne =>
    obtain ⟨p, hp, hid, hw⟩ := h.known id' e' he
    exact ⟨p, mem_filter.mpr ⟨hp, by simpa [hid] using hne⟩, hid, hw⟩

omit [ToString I] [ToString K] in
theorem Sound.disjoint (h : s.Sound) (hp : p ∈ s.prepared) (hq : q ∈ s.prepared) (hne : p.1 ≠ q.1)
    (hw : w ∈ p.2.writes) (hw' : w' ∈ q.2.writes) : w.touches w'.cf w'.key = false := by
  have hpt := (h.reserved p hp).points w hw
  rw [WriteEntry.touches, WriteEntry.writes, WriteEntry.covers]
  cases hop : w.op
  case range a b => simp [WriteEntry.isRange, hop] at hpt
  case point a v t k =>
    by_contra hc
    simp only [Bool.or_false, decide_eq_false_iff_not, not_not] at hc
    have h₁ := (h.reserved p hp).keys w hw
    have h₂ := (h.reserved q hq).keys w' hw'
    rw [← hc.1, ← hc.2, show a = w.key by simp [WriteEntry.key, hop], h₁, Option.some.injEq] at h₂
    exact hne h₂

omit [ToString I] [ToString K] in
theorem Sound.commitPrepared (h : s.Sound) (hr : s.registry.resolve id = some (e, reg))
    (hi : s.Records e.writes i) (hu : s.Undisturbed ⟨e.writes, some id⟩) :
    Sound { s.commit e.writes i with registry := reg, prepared := s.prepared.filter (·.1 ≠ id) } := by
  have he : s.registry.byId.lookup id = some e := by
    obtain ⟨e₀, he, heq⟩ := Option.map_eq_some_iff.mp hr
    rw [Prod.mk.injEq] at heq
    exact heq.1 ▸ he
  obtain ⟨q, hq, hqid, hqw⟩ := h.known id e he
  have h' := h.resolve hr
  obtain ⟨hspans, hmarked, hbelow⟩ := h.records hi
  have hmem : ∀ p ∈ s.prepared.filter (·.1 ≠ id), p ∈ s.prepared ∧ p.1 ≠ id := by
    intro p hp
    simpa using mem_filter.mp hp
  refine ⟨hspans, hmarked, hbelow, h'.reserved, h'.known, fun p hp => ?_, fun p hp hn => ?_⟩
  · exact (h'.snapshot p hp).trans_le (Nat.le_add_right ..)
  · obtain ⟨hp, hne⟩ := hmem p hp
    refine h.isolated_commit hp hn (fun w hw w' hw' => ?_) fun hs => hu p hp (by simpa using hne.symm) hs
    exact h.disjoint hq hp (fun hc => hne (hc ▸ hqid)) (hqw ▸ hw) hw'

theorem Sound.step (h : s.Sound) (hs : Step s l s') (hu : s.Undisturbed l) :
    s'.Sound := by
  cases hs
  case spans i hst hc =>
    obtain ⟨c, hspans⟩ := h.spans
    refine ⟨⟨c, hspans.step hst⟩, fun e he a b hop => ?_, h.below, h.reserved, h.known, h.snapshot, h.isolated⟩
    exact hc ▸ h.marked e he a b hop
  case commit r i _ _ hc hi => exact h.commit hc hi hu
  case failed n =>
    exact ⟨h.spans, h.marked, fun e he => (h.below e he).trans_le (Nat.le_add_right ..), h.reserved,
      h.known, fun p hp => (h.snapshot p hp).trans_le (Nat.le_add_right ..), h.isolated⟩
  case prepare hf hr hc => exact h.prepare hf hr hc
  case commitPrepared hr hi => exact h.commitPrepared hr hi hu
  case abortPrepared hr => exact h.resolve hr
  case forget =>
    exact ⟨h.spans, h.marked, h.below, fun p hp => ⟨(h.reserved p hp).entry, (h.reserved p hp).keys,
      (h.reserved p hp).points⟩, h.known, h.snapshot, h.isolated⟩

-- Where no commit writes a key that a prepared serializable transaction has read, every prepared
-- transaction finds what it validated as it was, up to the point where it is decided.
theorem prepared_isolated {capacity maxBytes : Nat}
    (h : Reachable (start capacity maxBytes) (fun s s' => ∃ l, Step s l s' ∧ s.Undisturbed l) s) :
    s.Isolated := by
  have hs : s.Sound := h.invariant (sound_start capacity maxBytes) fun s s' hst hs => by
    obtain ⟨l, hst, hu⟩ := hst
    exact hs.step hst hu
  intro p hp hn k hk
  exact (hs.isolated p hp hn k hk).versionsAt (hs.snapshot p hp).le

section Runs

def first : Request Nat Nat := ⟨.serializable, 0, [(0, 1)], [⟨0, .point 2 5 0 .put⟩]⟩

def second (key : Nat) : Request Nat Nat := ⟨.serializable, 0, [(0, 2)], [⟨0, .point key 7 0 .put⟩]⟩

def afterPrepare : Session Nat Nat Nat :=
  { (start 4 100 : Session Nat Nat Nat) with
    registry := (Registry.new 100).register ⟨9, first.writes, 1, 0⟩
    prepared := [(9, first)] }

def overflowed (s : Session Nat Nat Nat) (ws : List (WriteEntry Nat Nat)) : SpanIndex.System Nat :=
  { s.spans with
    index := s.spans.index.noteOverflow (s.nextSeq + ws.length)
    committed := Request.markers s.nextSeq ws ++ s.spans.committed }

theorem records_overflowed (s : Session Nat Nat Nat) (ws : List (WriteEntry Nat Nat)) :
    s.Records ws (overflowed s ws) := by
  refine ⟨.single (.overflow fun m hm => ?_), rfl, rfl⟩
  obtain ⟨⟨n, w⟩, he, rfl⟩ := mem_map.mp hm
  have := (CommitLog.mem_stamp he).2.2
  cases hop : w.op <;> simp only [hop] <;> omega

theorem step_prepare : Step (start 4 100) ⟨[], none⟩ afterPrepare :=
  have hc : (start 4 100 : Session Nat Nat Nat).checkPrepare 9 first 1 = .ok () := rfl
  .prepare (by decide) (by decide) hc

def afterCommit (key : Nat) : Session Nat Nat Nat :=
  afterPrepare.commit (second key).writes (overflowed afterPrepare (second key).writes)

-- A prepared transaction beside the commit of a key it has neither read nor written.
theorem prepared_isolated_afterCommit :
    Reachable (start 4 100) (fun s s' => ∃ l, Step s l s' ∧ s.Undisturbed l) (afterCommit 3) ∧
      (afterCommit 3).prepared ≠ [] ∧ (afterCommit 3).Isolated := by
  have hr : Reachable (start 4 100) (fun s s' => ∃ l, Step s l s' ∧ s.Undisturbed l) (afterCommit 3) := by
    refine (Reachable.start.next ⟨_, step_prepare, by simp [Undisturbed]⟩).next
      ⟨_, .commit (r := second 3) (by decide) (by decide) rfl (records_overflowed ..), ?_⟩
    intro p hp _ _ k hk w hw
    obtain rfl : p = (9, first) := by simpa [afterPrepare] using hp
    obtain rfl : k = (0, 1) := by simpa [first] using hk
    obtain rfl : w = ⟨0, .point 3 7 0 .put⟩ := by simpa [second] using hw
    rfl
  exact ⟨hr, by decide, prepared_isolated hr⟩

-- Two transactions that each read what the other writes: one is prepared, the other commits
-- beside it, and the prepared one commits all the same.
theorem prepared_write_skew :
    Step (start 4 100) ⟨[], none⟩ afterPrepare ∧
    Step afterPrepare ⟨(second 1).writes, none⟩ (afterCommit 1) ∧ ¬ (afterCommit 1).Isolated ∧
    ∃ s, Step (afterCommit 1) ⟨first.writes, some 9⟩ s := by
  have hres : ∃ reg, (afterCommit 1).registry.resolve 9 = some (⟨9, first.writes, 1, 0⟩, reg) := ⟨_, rfl⟩
  obtain ⟨reg, hres⟩ := hres
  refine ⟨step_prepare, .commit (by decide) (by decide) rfl (records_overflowed ..), fun h => ?_,
    _, .commitPrepared hres (records_overflowed ..)⟩
  have := h (9, first) (by simp [afterCommit, commit, afterPrepare]) (by decide) (0, 1) (by decide)
  revert this
  decide

end Runs

end OndaDb.Prepared.Session

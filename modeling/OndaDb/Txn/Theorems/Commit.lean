import OndaDb.Txn.Theorems.Apply
import OndaDb.Txn.Theorems.Script

namespace OndaDb.Txn

open List

variable {K V : Type} [LinearOrder K]
variable {W : List (WriteEntry K V)} {db : Families K V} {cf start : Nat} {k : K} {now : Int}
variable {op : Nat → Option (MergeOperator K V)}

section links

theorem link_of_writes (now : Int) {w : WriteEntry K V} (h : w.writes cf k) :
    ∃ l, w.link now cf k = some l ∧ (¬w.isMerge → ∃ b, l = .base b) := by
  obtain ⟨_, op⟩ := w
  cases op
  case range => simp [WriteEntry.writes] at h
  case point key value ttl kind =>
    simp only [WriteEntry.writes, decide_eq_true_eq] at h
    refine ⟨_, if_pos h, fun hm => ⟨_, if_neg ?_⟩⟩
    simpa [WriteEntry.isMerge, Version.isMerge] using hm

theorem link_of_covers {w : WriteEntry K V} (h : w.covers cf k) : w.link now cf k = some (.base none) := by
  obtain ⟨_, op⟩ := w
  cases op
  case point => simp [WriteEntry.covers] at h
  case range => simp [WriteEntry.link, h]

theorem link_eq_none {w : WriteEntry K V} (h₁ : ¬w.writes cf k) (h₂ : ¬w.covers cf k) :
    w.link now cf k = none := by
  obtain ⟨_, op⟩ := w
  cases op
  case point => simpa [WriteEntry.link, WriteEntry.writes] using h₁
  case range => simp [WriteEntry.link, h₂]

def links (now : Int) (cf : Nat) (k : K) (l : List (WriteEntry K V)) : List (Link V) :=
  l.filterMap (·.link now cf k)

theorem links_filter (h : ∀ w ∈ W, ¬w.covers cf k) :
    links now cf k W = links now cf k (W.filter (·.writes cf k)) := by
  rw [links, links, filterMap_filter]
  refine filterMap_congr fun w hw => ?_
  cases hk : w.writes cf k
  case true => rfl
  case false => simpa using link_eq_none (by simp [hk]) (h w hw)

theorem push_runOf (c : List V × Option (Option V)) (h : ∀ w ∈ W, w.writes cf k) :
    (links now cf k (runOf W)).foldl History.push c = (links now cf k W).foldl History.push c := by
  induction W using reverseRecOn
  case nil => rfl
  case append_singleton W w hi =>
    obtain ⟨l, hl, hb⟩ := link_of_writes now (h w (by simp))
    have hw : links now cf k [w] = [l] := by simp [links, hl]
    have happ : ∀ l, links now cf k (l ++ [w]) = links now cf k l ++ links now cf k [w] :=
      fun l => filterMap_append
    rw [runOf_concat, happ]
    split
    case isTrue => rw [happ, foldl_append, foldl_append, hi fun x hx => h x (by simp [hx])]
    case isFalse hm =>
      obtain ⟨b, rfl⟩ := hb hm
      rw [hw, foldl_append]
      rfl

-- Where the buffer writes no point, range deletes are all it has for the key.
theorem push_covers (c : List V × Option (Option V)) (h : ∀ w ∈ W, ¬w.writes cf k) :
    (links now cf k W).foldl History.push c =
      if W.any (·.covers cf k) then ([], some none) else c := by
  induction W using reverseRecOn
  case nil => rfl
  case append_singleton W w hi =>
    rw [links, filterMap_append, foldl_append]
    by_cases hk : w.covers cf k
    · simp [link_of_covers hk, hk, History.push]
    · have := hi fun x hx => h x (by simp [hx])
      rw [links] at this
      simp [this, link_eq_none (h w (by simp)) hk, hk]

end links

def RangesSurvive (W : List (WriteEntry K V)) : Prop :=
  (∀ w ∈ W, ¬w.isMerge) ∨ ∀ cf k, (∃ w ∈ W, w.covers cf k) → LastOver W cf k

theorem rangesSurvive_iff (h : NoOverlap W) (hr : RangesNonempty W) :
    RangesSurvive W ↔ ∀ cf k, (∃ w ∈ W, w.covers cf k) → ∃ w ∈ kept W, w.covers cf k := by
  simp only [kept_covers_iff h hr, RangesSurvive]
  by_cases hm : W.any (·.isMerge)
  · have hm' : ¬∀ w ∈ W, ¬w.isMerge := by simpa using hm
    simp only [hm, if_true]
    exact or_iff_right hm'
  · have hm' : ∀ w ∈ W, ¬w.isMerge := by simpa using hm
    simp only [hm, Bool.false_eq_true, if_false, imp_self, implies_true, iff_true]
    exact .inl hm'

theorem push_kept (h : NoOverlap W) (hr : RangesNonempty W) (hs : RangesSurvive W)
    (c : List V × Option (Option V)) :
    (links now cf k (kept W)).foldl History.push c = (links now cf k W).foldl History.push c := by
  by_cases hw : ∃ w ∈ W, w.writes cf k
  case pos =>
    obtain ⟨w, hw, hk⟩ := hw
    have hc : ∀ x ∈ W, ¬x.covers cf k := by
      intro x hx hc
      obtain ⟨hp, he⟩ := WriteEntry.writes_iff.mp hk
      rw [WriteEntry.slot, Prod.mk.injEq] at he
      exact h w hw hp x hx (he.1 ▸ he.2 ▸ hc)
    rw [links_filter hc, links_filter fun x hx => hc x (kept_subset hx), kept_points h hr]
    exact push_runOf c fun x hx => (mem_filter.mp hx).2
  have hn : ∀ w ∈ W, ¬w.writes cf k := fun w hwW hk => hw ⟨w, hwW, hk⟩
  rw [push_covers c hn, push_covers c fun w hw => hn w (kept_subset hw)]
  have he : (kept W).any (·.covers cf k) = W.any (·.covers cf k) := by
    rw [Bool.eq_iff_iff, any_eq_true, any_eq_true]
    exact ⟨Exists.imp fun w hw => ⟨kept_subset hw.1, hw.2⟩, (rangesSurvive_iff h hr).mp hs cf k⟩
  rw [he]

omit [LinearOrder K] in
theorem zipIdx_increasing (l : List (WriteEntry K V)) (n : Nat) : (l.zipIdx n).Pairwise (·.2 < ·.2) := by
  induction l generalizing n
  case nil => simp
  case cons w l hi =>
    rw [zipIdx_cons]
    refine pairwise_cons.mpr ⟨fun x hx => ?_, hi (n + 1)⟩
    have := (mem_zipIdx hx).1
    omega

omit [LinearOrder K] in
theorem zipIdx_bounds {l : List (WriteEntry K V)} : ∀ w ∈ l.zipIdx n, n ≤ w.2 ∧ w.2 < n + l.length :=
  fun w hw => ⟨(mem_zipIdx hw).1, by have := (mem_zipIdx hw).2.1; omega⟩

theorem filterMap_zipIdx_fst (l : List (WriteEntry K V)) :
    (l.zipIdx n).filterMap (fun w => w.1.link now cf k) = links now cf k l := by
  have : ((l.zipIdx n).map Prod.fst).filterMap (·.link now cf k) = links now cf k l := by
    rw [zipIdx_map_fst, links]
  rwa [filterMap_map] at this

theorem chain_applyPrepared (hd : db.WellFormed op start) :
    History.chain ((applyPrepared db W (deduplicatedWriteOrder W) start cf).data.history now k)
        (start + (kept W).length) =
      (links now cf k (kept W)).foldl History.push (History.chain ((db cf).data.history now k) start) := by
  rw [applyPrepared, slotted_order, chain_applyGroups (zipIdx_increasing _ _) zipIdx_bounds
    (hd.below cf) (by omega), filterMap_zipIdx_fst]

theorem wellFormed_applyPrepared (hd : db.WellFormed op start)
    (hop : ∀ w ∈ W, w.isMerge → op w.cf ≠ none) :
    (applyPrepared db W (deduplicatedWriteOrder W) start).WellFormed op (start + (kept W).length) := by
  rw [applyPrepared, slotted_order]
  refine WellFormed.applyGroups hd (zipIdx_increasing _ _) zipIdx_bounds (by omega) fun w hw hm => ?_
  refine hop w.1 (kept_subset ?_) hm
  exact zipIdx_map_fst start (kept W) ▸ mem_map_of_mem hw

theorem chain_applyInOrder (cf : Nat) (k : K) (now : Int) (hd : db.WellFormed op start)
    (hop : ∀ w ∈ W, w.isMerge → op w.cf ≠ none) :
    (applyInOrder db W start).WellFormed op (start + W.length) ∧
    History.chain ((applyInOrder db W start cf).data.history now k) (start + W.length) =
      (links now cf k W).foldl History.push (History.chain ((db cf).data.history now k) start) := by
  induction W generalizing db start
  case nil => exact ⟨hd, rfl⟩
  case cons w W hi =>
    have hb : ∀ x ∈ [(w, start)], start ≤ x.2 ∧ x.2 < start + 1 := by simp
    have hd' : (applyGroups db [(w, start)]).WellFormed op (start + 1) :=
      WellFormed.applyGroups hd (pairwise_singleton _ _) hb (by omega) (by simpa using hop w (by simp))
    have hw : History.chain ((applyGroups db [(w, start)] cf).data.history now k) (start + 1) = _ :=
      chain_applyGroups (pairwise_singleton _ _) hb (hd.below cf) (by omega)
    obtain ⟨h₁, h₂⟩ := hi hd' fun x hx => hop x (by simp [hx])
    have hlen : start + (w :: W).length = start + 1 + W.length := by
      rw [length_cons]
      omega
    rw [hlen]
    refine ⟨h₁, h₂.trans ?_⟩
    rw [hw, links, links, ← foldl_append]
    congr 1
    cases hl : w.link now cf k <;> simp [hl]

theorem noOverlap_of_checkBuffer [Repr K] (h : checkBuffer unified W = .ok order) :
    NoOverlap W ∧ order = deduplicatedWriteOrder W := by
  rw [checkBuffer] at h
  dsimp only at h
  split at h
  · cases h
  · by_cases hr : W.any (·.isRange)
    · rw [if_pos hr, checkOwnRangeOverlap] at h
      cases ho : ownRangeOverlap W
      case some => simp [ho, bind, Except.bind] at h
      case none =>
        simp only [ho, bind, Except.bind, pure, Except.pure, Except.ok.injEq] at h
        exact ⟨ownRangeOverlap_eq_none.mp ho, h.symm⟩
    · rw [if_neg hr] at h
      simp only [pure, Except.pure, Except.ok.injEq] at h
      -- Without range deletes there is nothing to overlap.
      refine ⟨fun w _ _ r hrW hc => hr ?_, h.symm⟩
      exact any_eq_true.mpr ⟨r, hrW, (covers_isRange hc).1⟩

section

variable [Inhabited V]

theorem read_applyPrepared (hd : db.WellFormed op start)
    (hop : ∀ w ∈ W, w.isMerge → op w.cf ≠ none) (hs : 0 < start) :
    (applyPrepared db W (deduplicatedWriteOrder W) start cf).data.read (op cf) k
        (start + (deduplicatedWriteOrder W).length - 1) now =
      resolveChain (op cf) k ((links now cf k (kept W)).foldl History.push
        (History.chain ((db cf).data.history now k) start)) := by
  have hwf := wellFormed_applyPrepared hd hop
  rw [Data.read_eq_chain (hwf.untied cf k) fun h => hwf.mergeFree cf h k,
    length_deduplicatedWriteOrder, Nat.sub_add_cancel (by omega), chain_applyPrepared hd]

theorem read_applyInOrder (hd : db.WellFormed op start)
    (hop : ∀ w ∈ W, w.isMerge → op w.cf ≠ none) (hs : 0 < start) :
    (applyInOrder db W start cf).data.read (op cf) k (start + W.length - 1) now =
      resolveChain (op cf) k ((links now cf k W).foldl History.push
        (History.chain ((db cf).data.history now k) start)) := by
  obtain ⟨hwf, hc⟩ := chain_applyInOrder cf k now hd hop
  rw [Data.read_eq_chain (hwf.untied cf k) fun h => hwf.mergeFree cf h k,
    Nat.sub_add_cancel (by omega), hc]

def single (k : K) : Families K V :=
  fun _ => { mems := [{ entries := [⟨k, 0, 0, .put, default⟩], ranges := .empty }], levels := [] }

theorem single_wellFormed (hs : 0 < start) : (single k : Families K V).WellFormed op start where
  below _ k' s h := by
    rcases h with ⟨v, hv, _, rfl⟩ | h
    · simp only [single, Tree.data, Tree.memData, Tree.tables, tablesData, Memtable.data] at hv
      simp_all
    · simp [single, Tree.data, Tree.memData, Tree.tables, tablesData, Memtable.data,
        RangeTombstoneSet.empty] at h
  untied _ k' v _ _ h := by
    simp [single, Tree.data, Tree.memData, Tree.tables, tablesData, Memtable.data,
      RangeTombstoneSet.empty] at h
  mergeFree _ _ k' v hv _ := by
    simp only [single, Tree.data, Tree.memData, Tree.tables, tablesData, Memtable.data] at hv
    simp_all [Version.isMerge]

theorem chain_single (hs : 0 < start) :
    History.chain ((single k cf : Tree K V).data.history now k) start = ([], some (some default)) := by
  have hv : (single k cf : Tree K V).data.version k 0 = some ⟨k, 0, 0, .put, default⟩ := by
    simp [Data.version, single, Tree.data, Tree.memData, Tree.tables, tablesData, Memtable.data]
  have hl : (single k cf : Tree K V).data.history now k 0 = some (.base (some default)) := by
    rw [Data.history_of_version hv]
    simp [Version.link, Version.isMerge, Version.tombstone, Version.expired, Kind.tombstone]
  rw [History.chain_eq_of_none hs fun s h₁ _ => ?_, History.chain_succ_base hl]
  by_contra hc
  rcases Data.hasSeq_of_history hc with ⟨v, hv, _, rfl⟩ | h
  · simp only [single, Tree.data, Tree.memData, Tree.tables, tablesData, Memtable.data] at hv
    simp_all
  · simp [single, Tree.data, Tree.memData, Tree.tables, tablesData, Memtable.data,
      RangeTombstoneSet.empty] at h

-- A commit amounts to the operations that survive, one after the other, on every prior state, iff no
-- range delete is lost.
theorem commit_eq_applyInOrder_iff [Repr K] {env : Env K V} {family : Nat → Family K V} {t : Txn K V}
    {s : Surviving K V} (h : Scripted env family t s)
    (ha : checkBuffer unified t.writes = .ok order) (hs : 0 < start) :
    (∀ db : Families K V, db.WellFormed (fun cf => (family cf).mergeOp) start → ∀ cf k now,
      (applyPrepared db t.writes order start cf).data.read (family cf).mergeOp k
          (start + order.length - 1) now =
        (applyInOrder db s.ops start cf).data.read (family cf).mergeOp k
          (start + s.ops.length - 1) now) ↔
      RangesSurvive s.ops := by
  obtain ⟨hno, rfl⟩ := noOverlap_of_checkBuffer ha
  have hacc := h.accepted
  rw [← h.consistent.writes]
  constructor
  case mpr =>
    intro hr db hd cf k now
    rw [read_applyPrepared hd hacc.merges hs, read_applyInOrder hd hacc.merges hs,
      push_kept hno hacc.ranges hr]
  case mp =>
    intro he
    rw [rangesSurvive_iff hno hacc.ranges]
    rintro cf k ⟨w, hw, hk⟩
    by_contra hc
    -- A key that only a lost range delete covers keeps its value.
    have hp : ∀ x ∈ t.writes, ¬x.writes cf k := by
      intro x hx hxk
      obtain ⟨hr, hslot⟩ := WriteEntry.writes_iff.mp hxk
      rw [WriteEntry.slot, Prod.mk.injEq] at hslot
      exact hno x hx hr w hw (hslot.1 ▸ hslot.2 ▸ hk)
    have hd : (single k : Families K V).WellFormed (fun cf => (family cf).mergeOp) start :=
      single_wellFormed hs
    have := he (single k) hd cf k 0
    rw [read_applyPrepared hd hacc.merges hs, read_applyInOrder hd hacc.merges hs, chain_single hs,
      push_covers _ hp, push_covers _ fun x hx => hp x (kept_subset hx),
      if_pos (any_eq_true.mpr ⟨w, hw, hk⟩),
      if_neg fun h => hc (by simpa using h)] at this
    cases hop : (family cf).mergeOp <;> simp [resolveChain, hop, MergeOperator.resolve] at this

end

section

def counters : Family Nat Nat where
  id := 0
  name := "counters"
  mergeOp := some ⟨fun _ e xs => e.getD 0 + xs.sum⟩
  mergeWritesEnabled := true

def plainEnv : Env Nat Nat where
  hash _ k     := k
  rangeDeletes := true
  isEmpty _    := false

def sharedStart : List (Call Nat Nat) :=
  [.deleteRange counters 0 10, .deleteRange counters 0 2, .merge counters 20 1]

def separateStarts : List (Call Nat Nat) :=
  [.deleteRange counters 0 10, .deleteRange counters 2 4, .merge counters 20 1]

def buffered (calls : List (Call Nat Nat)) : List (WriteEntry Nat Nat) :=
  (calls.foldl Surviving.call .empty).ops

theorem separateStarts_survive : RangesSurvive (buffered separateStarts) := by
  have hb : buffered separateStarts =
      [⟨0, .range 0 10⟩, ⟨0, .range 2 4⟩, ⟨0, .point 20 1 0 .merge⟩] := rfl
  refine .inr fun cf k ⟨w, hw, hk⟩ => ?_
  rw [hb] at hw ⊢
  simp only [mem_cons, not_mem_nil, or_false] at hw
  rcases hw with rfl | rfl | rfl
  · exact ⟨[], _, _, rfl, hk, by simp [WriteEntry.slot, WriteEntry.key]⟩
  · exact ⟨[_], _, _, rfl, hk, by simp [WriteEntry.slot, WriteEntry.key]⟩
  · simp [WriteEntry.covers] at hk

theorem commit_eq_applyInOrder_separateStarts :
    RangesSurvive (buffered separateStarts) ∧
    (applyPrepared (single 5) (buffered separateStarts) [0, 1, 2] 1 0).data.read
        counters.mergeOp 5 3 0 =
      (applyInOrder (single 5) (buffered separateStarts) 1 0).data.read counters.mergeOp 5 3 0 := by
  have hrun : (beginInner .snapshot false 0 : Txn Nat Nat).run plainEnv (fun _ _ _ => none) 0
      separateStarts = .ok { (beginInner .snapshot false 0 : Txn Nat Nat) with
        writes := buffered separateStarts, rangeWrites := [0, 1] } := rfl
  have hs : Scripted plainEnv (fun _ => counters) _ (separateStarts.foldl Surviving.call .empty) :=
    (Scripted.start .snapshot false 0).run (by simp [separateStarts, Call.family?]) hrun
  have ha : checkBuffer false (buffered separateStarts) = .ok [0, 1, 2] := by decide
  exact ⟨separateStarts_survive, (commit_eq_applyInOrder_iff hs ha Nat.one_pos).mpr
    separateStarts_survive _ (single_wellFormed Nat.one_pos) 0 5 0⟩

-- Two range deletes with the same start share a slot once the transaction holds an operand.
theorem commit_loses_range_delete :
    ((beginInner .snapshot false 0).run plainEnv (fun _ _ _ => none) 0 sharedStart).toOption.map
      (·.writes) = some (buffered sharedStart) ∧
    checkBuffer false (buffered sharedStart) = .ok [1, 2] ∧
    (applyPrepared (single 5) (buffered sharedStart) [1, 2] 1 0).data.read
        counters.mergeOp 5 2 0 = some 0 ∧
    (applyInOrder (single 5) (buffered sharedStart) 1 0).data.read
        counters.mergeOp 5 3 0 = none := by
  decide

end

end OndaDb.Txn

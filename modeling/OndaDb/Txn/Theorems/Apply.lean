import OndaDb.Read.Theorems.Reference
import OndaDb.Txn.Commit

namespace OndaDb

open List

variable {K V : Type} [LinearOrder K]

theorem find?_orderedInsert_neg {r : α → α → Prop} [DecidableRel r] {p : α → Bool} {l : List α}
    (h : ¬p a) : (l.orderedInsert r a).find? p = l.find? p := by
  induction l
  case nil => simp [h]
  case cons b l hi =>
    rw [orderedInsert]
    split
    · rw [find?_cons_of_neg h]
    · rw [find?_cons, find?_cons, hi]

theorem find?_eq_some_of_unique {l : List α} (h : ∀ a ∈ l, ∀ b ∈ l, p a → p b → a = b) :
    l.find? p = some a ↔ a ∈ l ∧ p a := by
  refine ⟨fun ha => ⟨mem_of_find?_eq_some ha, find?_some ha⟩, fun ⟨ha, hp⟩ => ?_⟩
  cases hf : l.find? p
  case none => exact absurd hp (find?_eq_none.mp hf a ha)
  case some b =>
    rw [h a ha b (mem_of_find?_eq_some hf) hp (find?_some hf)]

namespace Memtable

variable {m : Memtable K V} {recs : List (Version K V)} {ranges : List (Span K)}

theorem ranges_putBatch : (m.putBatch recs).ranges = m.ranges := by
  induction recs generalizing m
  case nil => rfl
  case cons v recs hi => exact hi

theorem mem_entries_putBatch : v ∈ (m.putBatch recs).entries ↔ v ∈ recs ∨ v ∈ m.entries := by
  induction recs generalizing m
  case nil => simp [putBatch]
  case cons w recs hi =>
    rw [show m.putBatch (w :: recs) = (m.put w).putBatch recs from rfl, hi]
    simp only [put, mem_orderedInsert, mem_cons]
    tauto

theorem find?_putBatch {p : Version K V → Bool} (h : ∀ v ∈ recs, ¬p v) :
    (m.putBatch recs).entries.find? p = m.entries.find? p := by
  induction recs generalizing m
  case nil => rfl
  case cons w recs hi =>
    rw [show m.putBatch (w :: recs) = (m.put w).putBatch recs from rfl,
      hi fun v hv => h v (by simp [hv]), put, find?_orderedInsert_neg (h w (by simp))]

theorem entries_foldl_addRange : (ranges.foldl addRange m).entries = m.entries := by
  induction ranges generalizing m
  case nil => rfl
  case cons s ranges hi => exact hi

theorem mem_spans_add {t : RangeTombstoneSet K} :
    s ∈ (t.add start stop seq).spans ↔ s = ⟨start, stop, seq⟩ ∨ s ∈ t.spans :=
  mem_insertIdx partitionPoint_le_length

theorem mem_spans_foldl_addRange :
    s ∈ (ranges.foldl addRange m).ranges.spans ↔ s ∈ ranges ∨ s ∈ m.ranges.spans := by
  induction ranges generalizing m
  case nil => simp
  case cons x ranges hi =>
    rw [foldl_cons, hi, addRange, mem_spans_add, mem_cons]
    tauto

theorem covered_data : Covered m.data.fragments k s ↔ RangeDeleted m.ranges.spans k s := by
  simp [data, Covered, RangeDeleted, Fragment.Contains, Span.Contains, eq_comm]

end Memtable

namespace Tree

variable {t : Tree K V} {recs : List (Version K V)} {ranges : List (Span K)}

omit [LinearOrder K] in
theorem data_eq (t : Tree K V) :
    t.data = (t.mems.headD .empty).data ++ (Tree.mk t.mems.tail t.levels).data := by
  obtain ⟨mems, levels⟩ := t
  cases mems
  case nil => rfl
  case cons m _ =>
    exact congrArg₂ Data.mk (by simp [data, memData, tables]) (by simp [data, memData, tables])

theorem data_applyBatch : (t.applyBatch recs ranges).data =
    ((t.mems.headD .empty).applyBatch recs ranges).data ++ (Tree.mk t.mems.tail t.levels).data :=
  data_eq _

theorem mem_versions_applyBatch :
    v ∈ (t.applyBatch recs ranges).data.versions ↔ v ∈ recs ∨ v ∈ t.data.versions := by
  rw [data_applyBatch, data_eq t]
  simp [Memtable.data, Memtable.applyBatch, Memtable.entries_foldl_addRange,
    Memtable.mem_entries_putBatch, or_assoc]

theorem version_applyBatch (h : ∀ v ∈ recs, ¬(v.key = k ∧ v.seq = s)) :
    (t.applyBatch recs ranges).data.version k s = t.data.version k s := by
  have hr : ∀ v ∈ recs, ¬(decide (v.key = k ∧ v.seq = s)) := by simpa using h
  rw [data_applyBatch, data_eq t]
  simp only [Data.version, Data.versions_append, find?_append, Memtable.data,
    Memtable.applyBatch, Memtable.entries_foldl_addRange, Memtable.find?_putBatch hr]

theorem covered_applyBatch : Covered (t.applyBatch recs ranges).data.fragments k s ↔
    RangeDeleted ranges k s ∨ Covered t.data.fragments k s := by
  rw [data_applyBatch, data_eq t]
  simp only [Data.fragments_append, covered_append, Memtable.covered_data, RangeDeleted,
    Memtable.applyBatch, Memtable.mem_spans_foldl_addRange, Memtable.ranges_putBatch, or_and_right,
    exists_or, or_assoc]

end Tree

def Data.Below (d : Data K V) (n : Nat) : Prop :=
  ∀ k s, d.HasSeq k s → s < n

structure Families.WellFormed (op : Nat → Option (MergeOperator K V)) (db : Families K V) (n : Nat) :
    Prop where
  below : ∀ cf, (db cf).data.Below n
  untied : ∀ cf k, (db cf).data.Untied k
  mergeFree : ∀ cf, op cf = none → ∀ k, (db cf).data.MergeFree k

def WriteEntry.link (now : Int) (cf : Nat) (k : K) (w : WriteEntry K V) : Option (Link V) :=
  match w.op with
  | .point key value ttl kind =>
    if w.cf = cf ∧ key = k then some (Version.link now ⟨key, 0, ttl, kind, value⟩) else none
  | .range .. => if w.covers cf k then some (.base none) else none

namespace Txn

variable {L : List (WriteEntry K V × Nat)} {cf : Nat} {k : K} {db : Families K V}
variable {op : Nat → Option (MergeOperator K V)}

omit [LinearOrder K] in
theorem mem_records : v ∈ records L cf ↔ ∃ w ∈ L, w.1.cf = cf ∧ w.1.record w.2 = some v := by
  simp only [records, mem_filterMap]
  exact exists_congr fun w => and_congr_right fun _ => by split <;> simp_all

omit [LinearOrder K] in
theorem mem_ranges : sp ∈ ranges L cf ↔ ∃ w ∈ L, w.1.cf = cf ∧ w.1.span w.2 = some sp := by
  simp only [ranges, mem_filterMap]
  exact exists_congr fun w => and_congr_right fun _ => by split <;> simp_all

omit [LinearOrder K] in
theorem seq_of_record {w : WriteEntry K V} (h : w.record s = some v) : v.seq = s := by
  obtain ⟨_, op⟩ := w
  cases op <;> simp [WriteEntry.record] at h
  exact h ▸ rfl

theorem rangeDeleted_ranges : RangeDeleted (ranges L cf) k s ↔ ∃ w ∈ L, w.2 = s ∧ w.1.covers cf k := by
  simp only [RangeDeleted, mem_ranges]
  constructor
  · rintro ⟨sp, ⟨⟨⟨_, op⟩, t⟩, hw, hcf, hsp⟩, hk, hs⟩
    refine ⟨_, hw, ?_⟩
    cases op <;> simp_all [WriteEntry.span, WriteEntry.covers]
    subst hsp
    exact ⟨hs, hk⟩
  · rintro ⟨⟨⟨wcf, op⟩, t⟩, hw, hs, hk⟩
    cases op
    case point => simp [WriteEntry.covers] at hk
    case range a b =>
      simp only [WriteEntry.covers, decide_eq_true_eq] at hk
      exact ⟨⟨a, b, t⟩, ⟨_, hw, hk.1, rfl⟩, hk.2, hs⟩

section history

variable (hL : L.Pairwise (·.2 < ·.2))

include hL in
omit [LinearOrder K] in
theorem eq_of_seq_eq (hw : w ∈ L) (hx : x ∈ L) (h : w.2 = x.2) : w = x := by
  have hn : (L.map Prod.snd).Nodup := pairwise_map.mpr (hL.imp fun h => Nat.ne_of_lt h)
  exact inj_on_of_nodup_map hn hw hx h

theorem history_applyGroups_old (hn : ∀ w ∈ L, n ≤ w.2) (hs : s < n) :
    (applyGroups db L cf).data.history now k s = (db cf).data.history now k s := by
  have hv : ∀ v ∈ records L cf, ¬(v.key = k ∧ v.seq = s) := by
    intro v hv h
    obtain ⟨w, hw, _, hr⟩ := mem_records.mp hv
    have := hn w hw
    have := seq_of_record hr
    omega
  have hc : ¬RangeDeleted (ranges L cf) k s := fun h => by
    obtain ⟨w, hw, hws, _⟩ := rangeDeleted_ranges.mp h
    have := hn w hw
    omega
  simp only [Data.history, applyGroups, Tree.version_applyBatch hv, Tree.covered_applyBatch, hc,
    false_or]

include hL in
theorem history_applyGroups_new (hd : (db cf).data.Below n) (hs : n ≤ s) :
    (applyGroups db L cf).data.history now k s =
      (L.find? (·.2 = s)).bind fun w => w.1.link now cf k := by
  have hold : ¬(db cf).data.HasSeq k s := fun h => absurd (hd k s h) (by omega)
  have hcov : Covered (applyGroups db L cf).data.fragments k s ↔ ∃ w ∈ L, w.2 = s ∧ w.1.covers cf k := by
    rw [applyGroups, Tree.covered_applyBatch, rangeDeleted_ranges]
    exact or_iff_left fun h => hold (.inr h)
  have hmem : ∀ v, v.key = k → v.seq = s → (v ∈ (applyGroups db L cf).data.versions ↔
      ∃ w ∈ L, w.1.cf = cf ∧ w.1.record w.2 = some v) := by
    intro v hk hv
    rw [applyGroups, Tree.mem_versions_applyBatch, mem_records]
    exact or_iff_left fun h => hold (.inl ⟨v, h, hk, hv⟩)
  cases hf : L.find? (·.2 = s)
  case none =>
    have hno : ∀ w ∈ L, w.2 ≠ s := by simpa using hf
    rw [Data.history_of_not_mem, if_neg]
    · rfl
    · exact fun h => by
        obtain ⟨w, hw, hws, _⟩ := hcov.mp h
        exact hno w hw hws
    · intro v hv hk hvs
      obtain ⟨w, hw, _, hr⟩ := (hmem v hk hvs).mp hv
      exact hno w hw ((seq_of_record hr).symm.trans hvs)
  case some w =>
    have hw := mem_of_find?_eq_some hf
    have hws : w.2 = s := by simpa using find?_some hf
    have honly : ∀ x ∈ L, x.2 = s → x = w := fun x hx hxs => eq_of_seq_eq hL hx hw (hxs.trans hws.symm)
    obtain ⟨⟨wcf, wop⟩, t⟩ := w
    subst hws
    cases wop
    case range a b =>
      rw [Data.history_of_not_mem]
      · have hc : Covered (applyGroups db L cf).data.fragments k t ↔
            (⟨wcf, .range a b⟩ : WriteEntry K V).covers cf k := by
          rw [hcov]
          refine ⟨fun ⟨x, hx, hxs, hk⟩ => ?_, fun hk => ⟨_, hw, rfl, hk⟩⟩
          rwa [honly x hx hxs] at hk
        simp only [hc, Option.bind_some, WriteEntry.link]
      · intro v hv hk hvs
        obtain ⟨x, hx, _, hr⟩ := (hmem v hk hvs).mp hv
        rw [honly x hx ((seq_of_record hr).symm.trans hvs)] at hr
        cases hr
    case point key value ttl kind =>
      by_cases hk : wcf = cf ∧ key = k
      · obtain ⟨rfl, rfl⟩ := hk
        have hv : (applyGroups db L wcf).data.version key t = some ⟨key, t, ttl, kind, value⟩ := by
          rw [Data.version, find?_eq_some_of_unique]
          · exact ⟨(hmem _ rfl rfl).mpr ⟨_, hw, rfl, rfl⟩, by simp⟩
          · intro v₁ h₁ v₂ h₂ hp₁ hp₂
            obtain ⟨hk₁, hs₁⟩ := of_decide_eq_true hp₁
            obtain ⟨hk₂, hs₂⟩ := of_decide_eq_true hp₂
            obtain ⟨x₁, hx₁, _, hr₁⟩ := (hmem v₁ hk₁ hs₁).mp h₁
            obtain ⟨x₂, hx₂, _, hr₂⟩ := (hmem v₂ hk₂ hs₂).mp h₂
            rw [honly x₁ hx₁ ((seq_of_record hr₁).symm.trans hs₁)] at hr₁
            rw [honly x₂ hx₂ ((seq_of_record hr₂).symm.trans hs₂)] at hr₂
            exact Option.some.inj (hr₁.symm.trans hr₂)
        rw [Data.history_of_version hv]
        simp [WriteEntry.link, Version.link, Version.isMerge, Version.tombstone, Version.expired]
      · rw [Data.history_of_not_mem, if_neg]
        · simp [WriteEntry.link, hk]
        · intro h
          obtain ⟨x, hx, hxs, hc⟩ := hcov.mp h
          rw [honly x hx hxs] at hc
          simp [WriteEntry.covers] at hc
        · intro v hv hvk hvs
          obtain ⟨x, hx, hxcf, hr⟩ := (hmem v hvk hvs).mp hv
          have he := honly x hx ((seq_of_record hr).symm.trans hvs)
          rw [he] at hr hxcf
          obtain rfl := Option.some.inj hr
          exact hk ⟨hxcf, hvk⟩

omit [LinearOrder K] in
theorem find?_filterMap_seq {f : WriteEntry K V → Option β} (hL : L.Pairwise (·.2 < ·.2)) :
    ((L.filterMap fun w => (f w.1).map (w.2, ·)).find? (·.1 = s)).map (·.2) =
      (L.find? (·.2 = s)).bind fun w => f w.1 := by
  induction L
  case nil => rfl
  case cons w L hi =>
    obtain ⟨hw, hL⟩ := pairwise_cons.mp hL
    by_cases hs : w.2 = s
    · rw [find?_cons_of_pos (by simpa using hs), Option.bind_some, filterMap_cons]
      cases hf : f w.1
      case some b => simp [hs]
      case none =>
        simp only [Option.map_none, Option.map_eq_none_iff, find?_eq_none, mem_filterMap,
          Option.map_eq_some_iff, decide_eq_true_eq]
        rintro _ ⟨x, hx, b, _, rfl⟩ he
        have := hw x hx
        omega
    · rw [find?_cons_of_neg (by simpa using hs), ← hi hL, filterMap_cons]
      cases f w.1 <;> simp [hs]

theorem chain_applyGroups (hL : L.Pairwise (·.2 < ·.2)) (hb : ∀ w ∈ L, n ≤ w.2 ∧ w.2 < m)
    (hd : (db cf).data.Below n) (hm : n ≤ m) :
    History.chain ((applyGroups db L cf).data.history now k) m =
      (L.filterMap fun w => w.1.link now cf k).foldl History.push
        (History.chain ((db cf).data.history now k) n) := by
  have hold : History.chain ((applyGroups db L cf).data.history now k) n =
      History.chain ((db cf).data.history now k) n :=
    History.chain_congr fun s hs => history_applyGroups_old (fun w hw => (hb w hw).1) hs
  have hmap : (L.filterMap fun w => w.1.link now cf k) =
      (L.filterMap fun w => (w.1.link now cf k).map (w.2, ·)).map (·.2) := by
    rw [map_filterMap]
    exact filterMap_congr fun w _ => by simp [Function.comp_def]
  rw [hmap, ← hold]
  refine History.chain_eq_foldl_push ?_ ?_ hm fun s hs _ => ?_
  · refine pairwise_filterMap.mpr (hL.imp fun {w x} hwx => ?_)
    simp only [Option.map_eq_some_iff]
    rintro _ ⟨_, _, rfl⟩ _ ⟨_, _, rfl⟩
    exact hwx
  · simp only [mem_filterMap, Option.map_eq_some_iff]
    rintro _ ⟨w, hw, _, _, rfl⟩
    exact hb w hw
  · rw [history_applyGroups_new hL hd hs, find?_filterMap_seq hL]

end history

theorem hasSeq_applyGroups (h : (applyGroups db L cf).data.HasSeq k s) :
    (∃ w ∈ L, w.2 = s) ∨ (db cf).data.HasSeq k s := by
  rcases h with ⟨v, hv, hk, hs⟩ | h
  · rw [applyGroups, Tree.mem_versions_applyBatch, mem_records] at hv
    rcases hv with ⟨w, hw, _, hr⟩ | hv
    · exact .inl ⟨w, hw, (seq_of_record hr).symm.trans hs⟩
    · exact .inr (.inl ⟨v, hv, hk, hs⟩)
  · rw [applyGroups, Tree.covered_applyBatch, rangeDeleted_ranges] at h
    exact h.imp (fun ⟨w, hw, hs, _⟩ => ⟨w, hw, hs⟩) .inr

theorem WellFormed.applyGroups (h : db.WellFormed op n) (hL : L.Pairwise (·.2 < ·.2))
    (hb : ∀ w ∈ L, n ≤ w.2 ∧ w.2 < m) (hm : n ≤ m) (hop : ∀ w ∈ L, w.1.isMerge → op w.1.cf ≠ none) :
    (applyGroups db L).WellFormed op m where
  below cf k s hs := by
    rcases hasSeq_applyGroups hs with ⟨w, hw, rfl⟩ | hs
    · exact (hb w hw).2
    · exact (h.below cf k s hs).trans_le hm
  untied cf k v hv hk hc := by
    rw [Txn.applyGroups, Tree.mem_versions_applyBatch, mem_records] at hv
    rw [Txn.applyGroups, Tree.covered_applyBatch, rangeDeleted_ranges] at hc
    rcases hv with ⟨w, hw, _, hr⟩ | hv <;> rcases hc with ⟨x, hx, hs, hc⟩ | hc
    · obtain rfl := eq_of_seq_eq hL hx hw (hs.trans (seq_of_record hr))
      obtain ⟨⟨_, op⟩, _⟩ := x
      cases op <;> simp_all [WriteEntry.covers, WriteEntry.record]
    · have := h.below cf k _ (.inr hc)
      have := (hb w hw).1
      have := seq_of_record hr
      omega
    · have := h.below cf k _ (.inl ⟨v, hv, hk, rfl⟩)
      have := (hb x hx).1
      omega
    · exact h.untied cf k v hv hk hc
  mergeFree cf ho k v hv hk hm := by
    rw [Txn.applyGroups, Tree.mem_versions_applyBatch, mem_records] at hv
    rcases hv with ⟨⟨⟨wcf, wop⟩, s⟩, hw, hcf, hr⟩ | hv
    · cases wop
      case range => cases hr
      case point =>
        obtain rfl := Option.some.inj hr
        exact hop _ hw (by simpa [WriteEntry.isMerge, Version.isMerge] using hm)
          (hcf ▸ ho)
    · exact h.mergeFree cf ho k v hv hk hm

end Txn

end OndaDb

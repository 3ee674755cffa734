import OndaDb.RangeTombstone.Mask
import OndaDb.RangeTombstone.Theorems.Fragment

namespace OndaDb

open List

variable {p : Pushed} {cmp : Comparator} {key : Bytes} {c : FragCursor} {m : RangeMask}

namespace Pushed

def place (p : Pushed) (key : Bytes) : Bytes :=
  p.keyPrefix.getD [] ++ key

def Contains (p : Pushed) (cmp : Comparator) (key : Bytes) (f : Fragment Bytes) : Prop :=
  (p.cursor.compare cmp f.start key).isLE ∧ (p.cursor.compare cmp f.stop key).isGT

instance : DecidablePred (p.Contains cmp key) :=
  fun _ => inferInstanceAs (Decidable (_ ∧ _))

def visible (p : Pushed) (cmp : Comparator) (key : Bytes) (readSeq : Nat) : List Nat :=
  p.frags.filter (p.Contains cmp key) |>.flatMap fun f => f.seqs.filter (· ≤ readSeq)

def Holds (p : Pushed) (cmp : Comparator) (key : Bytes) (s : Nat) : Prop :=
  ∃ f ∈ p.frags, p.Contains cmp key f ∧ s ∈ f.seqs

theorem mem_visible : s ∈ p.visible cmp key r ↔ p.Holds cmp key s ∧ s ≤ r := by
  simp only [visible, mem_flatMap, mem_filter, decide_eq_true_eq, Holds]
  constructor
  case mp =>
    rintro ⟨f, ⟨hf, hc⟩, hs, hr⟩
    exact ⟨⟨f, hf, hc, hs⟩, hr⟩
  case mpr =>
    rintro ⟨⟨f, hf, hc, hs⟩, hr⟩
    exact ⟨f, ⟨hf, hc⟩, hs, hr⟩

structure Ordered (p : Pushed) : Prop where
  trans : Std.TransCmp p.cmp
  wf : ∀ f ∈ p.frags, p.cmp f.start f.stop = .lt
  sorted : p.frags.Pairwise fun f g => (p.cmp f.stop g.start).isLE
  desc : ∀ f ∈ p.frags, f.seqs.Pairwise (· > ·)

-- The mask compares `key` with the bounds of the set as the order of the set does, and `key` lies in
-- the bounds of the scan.
structure Aligned (p : Pushed) (cmp : Comparator) (key : Bytes) : Prop where
  start : ∀ f ∈ p.frags, p.cursor.compare cmp f.start key = p.cmp f.start (p.place key)
  stop : ∀ f ∈ p.frags, p.cursor.compare cmp f.stop key = p.cmp f.stop (p.place key)
  lower : ∀ k ∈ p.lower, (p.cmp k (p.place key)).isLE
  upper : ∀ k ∈ p.upper, p.cmp (p.place key) k = .lt

def past (p : Pushed) (cmp : Comparator) (key : Bytes) (f : Fragment Bytes) : Bool :=
  (p.cursor.compare cmp f.stop key).isLE

theorem not_past_of_contains (h : p.Contains cmp key f) : ¬p.past cmp key f := by
  rw [past, Bool.not_eq_true, ← Bool.not_eq_true', Ordering.not_isLE_eq_isGT]
  exact h.2

namespace Ordered

variable (ho : p.Ordered) (ha : p.Aligned cmp key)
include ho ha

theorem past_partitioned : p.frags.Pairwise fun f g => p.past cmp key g → p.past cmp key f := by
  have := ho.trans
  apply ho.sorted.imp_of_mem
  intro f g hf hg hfg hp
  rw [past, ha.stop g hg] at hp
  rw [past, ha.stop f hf]
  have hw : (p.cmp g.start g.stop).isLE := by rw [ho.wf g hg]; rfl
  exact Std.TransCmp.isLE_trans (Std.TransCmp.isLE_trans hfg hw) hp

theorem windowStart_le : p.windowStart ≤ p.frags.partitionPoint (p.past cmp key) := by
  have := ho.trans
  unfold windowStart
  cases hl : p.lower
  case none => exact Nat.zero_le _
  case some l =>
    apply partitionPoint_mono
    intro f hf hp
    rw [past, ha.stop f hf]
    exact Std.TransCmp.isLE_trans hp (ha.lower l hl)

omit ha in
theorem upper_partitioned (u : Bytes) :
    p.frags.Pairwise fun f g => (p.cmp g.start u).isLT → (p.cmp f.start u).isLT := by
  have := ho.trans
  apply ho.sorted.imp_of_mem
  intro f g hf _ hfg hg
  rw [Ordering.isLT_iff_eq_lt] at hg ⊢
  exact Std.TransCmp.lt_trans (Std.TransCmp.lt_of_lt_of_isLE (ho.wf f hf) hfg) hg

theorem lt_windowEnd (hf : p.frags[i]? = some f) (hc : p.Contains cmp key f) : i < p.windowEnd := by
  have := ho.trans
  unfold windowEnd
  cases hu : p.upper
  case none => exact (List.getElem?_eq_some_iff.mp hf).1
  case some u =>
    have hs : (p.cmp f.start (p.place key)).isLE := ha.start f (mem_of_getElem? hf) ▸ hc.1
    apply (any_getElem?_iff_lt_partitionPoint (ho.upper_partitioned u)).mp
    rw [hf, Option.any_some, Ordering.isLT_iff_eq_lt]
    exact Std.TransCmp.lt_of_isLE_of_lt hs (ha.upper u hu)

theorem eq_partitionPoint (hf : p.frags[i]? = some f) (hc : p.Contains cmp key f) :
    i = p.frags.partitionPoint (p.past cmp key) := by
  have := ho.trans
  have hp (j : Nat) : p.frags[j]?.any (p.past cmp key) ↔ j < _ :=
    any_getElem?_iff_lt_partitionPoint (ho.past_partitioned ha)
  have hle : p.frags.partitionPoint (p.past cmp key) ≤ i := by
    apply Nat.le_of_not_lt
    rw [← hp i, hf, Option.any_some]
    exact not_past_of_contains hc
  apply Nat.le_antisymm _ hle
  by_contra hlt
  rw [Nat.not_le] at hlt
  -- The fragment a search finds would end above the key, but at or below the start of `f`.
  obtain ⟨hi, rfl⟩ := List.getElem?_eq_some_iff.mp hf
  have hg := getElem?_eq_getElem (hlt.trans hi)
  have hn := mt (hp (p.frags.partitionPoint (p.past cmp key))).mp (Nat.lt_irrefl _)
  rw [hg, Option.any_some, past, ha.stop _ (getElem_mem _)] at hn
  have hs := pairwise_iff_getElem.mp ho.sorted _ _ (hlt.trans hi) hi hlt
  exact hn (Std.TransCmp.isLE_trans hs (ha.start _ (getElem_mem _) ▸ hc.1))

end Ordered

end Pushed

structure FragCursor.Over (p : Pushed) (c : FragCursor) : Prop where
  same : { c with idx := p.windowStart } = p.cursor
  low : p.windowStart ≤ c.idx
  high : c.idx ≤ p.windowEnd

namespace FragCursor.Over

theorem compare_eq (h : Over p c) : c.compare cmp = p.cursor.compare cmp := by
  rw [← h.same]
  rfl

theorem seek_idx (h : Over p c) (ho : p.Ordered) (ha : p.Aligned cmp key) :
    (c.seek cmp key).idx = min p.windowEnd (p.frags.partitionPoint (p.past cmp key)) := by
  have hs := ho.windowStart_le ha
  have hw := h.low.trans h.high
  have hc := h.same
  rw [Pushed.cursor, FragCursor.mk.injEq] at hc
  have he : (c.seek cmp key).idx = p.frags.walkDown (p.past cmp key) p.windowStart
      (p.frags.walkUp (p.past cmp key) p.windowEnd c.idx) := by
    simp only [seek, h.compare_eq, hc]
    rfl
  rw [he, walkDown_walkUp (ho.past_partitioned ha) h.low h.high]
  omega

theorem seek (h : Over p c) (ho : p.Ordered) (ha : p.Aligned cmp key) : Over p (c.seek cmp key) := by
  have hs := ho.windowStart_le ha
  have hw := h.low.trans h.high
  have hi := h.seek_idx ho ha
  exact ⟨h.same, by omega, by omega⟩

theorem current_eq (h : Over p c) : c.current cmp key r =
    if c.idx = p.windowEnd then none else p.frags[c.idx]?.bind fun f =>
      if (p.cursor.compare cmp f.start key).isGT then none else f.visibleSeq r := by
  have hc := h.same
  rw [Pushed.cursor, FragCursor.mk.injEq] at hc
  simp only [current, h.compare_eq, hc]
  rfl

theorem current_newest (h : Over p c) (ho : p.Ordered) (ha : p.Aligned cmp key) :
    Newest (p.Holds cmp key) r ((c.seek cmp key).current cmp key r) := by
  have hi := h.seek_idx ho ha
  rw [(h.seek ho ha).current_eq]
  by_cases hex : ∃ (i : Nat) (f : Fragment Bytes), p.frags[i]? = some f ∧ p.Contains cmp key f
  case pos =>
    obtain ⟨i, f, hf, hc⟩ := hex
    have he := ho.eq_partitionPoint ha hf hc
    have hw := ho.lt_windowEnd ha hf hc
    have hidx : (c.seek cmp key).idx = i := by omega
    have hg : ¬(p.cursor.compare cmp f.start key).isGT := by
      rw [← Ordering.not_isLE_eq_isGT, hc.1]
      decide
    rw [hidx, if_neg hw.ne, hf, Option.bind_some, if_neg hg]
    apply (Fragment.visibleSeq_newest (ho.desc f (mem_of_getElem? hf))).congr_of_le
    intro s _
    constructor
    case mp => exact fun hs => ⟨f, mem_of_getElem? hf, hc, hs⟩
    case mpr =>
      rintro ⟨g, hg, hgc, hs⟩
      obtain ⟨j, hj⟩ := mem_iff_getElem?.mp hg
      have hji : j = i := (ho.eq_partitionPoint ha hj hgc).trans he.symm
      rw [hji, hf, Option.some.injEq] at hj
      exact hj ▸ hs
  have hn (s : Nat) : ¬p.Holds cmp key s := by
    rintro ⟨f, hf, hc, _⟩
    obtain ⟨i, hi⟩ := mem_iff_getElem?.mp hf
    exact hex ⟨i, f, hi, hc⟩
  have of_none {o : Option Nat} (ho : o = none) : Newest (p.Holds cmp key) r o :=
    ho ▸ fun s _ => hn s
  apply of_none
  split
  case isTrue => rfl
  case isFalse hw =>
    cases hf : p.frags[(c.seek cmp key).idx]?
    case none => rfl
    case some f =>
      -- The fragment found ends above the key, so it must start above it.
      have hp := mt (any_getElem?_iff_lt_partitionPoint (ho.past_partitioned ha)).mp
        (show ¬(c.seek cmp key).idx < _ by omega)
      rw [hf, Option.any_some, Pushed.past, Bool.not_eq_true, ← Bool.not_eq_true',
        Ordering.not_isLE_eq_isGT] at hp
      rw [Option.bind_some, if_pos]
      rw [← Ordering.not_isLE_eq_isGT, Bool.not_eq_true', ← Bool.not_eq_true]
      exact fun hs => hex ⟨_, f, hf, hs, hp⟩

end FragCursor.Over

theorem Pushed.not_holds_of_window (ho : p.Ordered) (ha : p.Aligned cmp key)
    (hw : ¬p.windowStart < p.windowEnd) : ¬p.Holds cmp key s := by
  rintro ⟨f, hf, hc, _⟩
  obtain ⟨i, hi⟩ := mem_iff_getElem?.mp hf
  have := ho.eq_partitionPoint ha hi hc
  have := ho.lt_windowEnd ha hi hc
  have := ho.windowStart_le ha
  omega

def RangeMask.Over (ps : List Pushed) (m : RangeMask) : Prop :=
  List.Forall₂ FragCursor.Over (ps.filter fun p => p.windowStart < p.windowEnd) m.sources

namespace RangeMask

variable {ps qs : List Pushed}

theorem Over.pushSnapshot (h : Over ps m) : Over (ps ++ [p]) (m.pushSnapshot p) := by
  unfold Over RangeMask.pushSnapshot at *
  by_cases hw : p.windowStart < p.windowEnd
  case pos =>
    rw [if_pos hw, filter_append, filter_singleton, decide_eq_true hw]
    exact rel_append h (.cons ⟨rfl, le_rfl, hw.le⟩ .nil)
  rw [if_neg hw, filter_append, filter_singleton, decide_eq_false hw]
  simpa using h

theorem Over.foldl (h : Over ps m) : Over (ps ++ qs) (qs.foldl RangeMask.pushSnapshot m) := by
  induction qs generalizing ps m
  case nil => simpa using h
  case cons q qs hi =>
    rw [append_cons, foldl_cons]
    exact hi h.pushSnapshot

theorem over_pushes (ps : List Pushed) : Over ps (ps.foldl RangeMask.pushSnapshot .empty) := by
  have h : Over [] .empty := .nil
  exact h.foldl

theorem foldl_coveringSeq (h : List.Forall₂ FragCursor.Over ps cs) (ho : ∀ p ∈ ps, p.Ordered)
    (ha : ∀ p ∈ ps, p.Aligned cmp key) (hb : Newest P r best) :
    Newest (fun s => P s ∨ ∃ p ∈ ps, p.Holds cmp key s) r
      ((cs.map (·.coveringSeq cmp key r)).foldl (fun best a => a.1.elim best best.newer) best) := by
  induction h generalizing P best
  case nil => simpa using hb
  case cons p c ps cs hpc _ ih =>
    have hn := hb.merge (hpc.current_newest (ho p (mem_cons_self ..)) (ha p (mem_cons_self ..)))
    have := ih (fun q hq => ho q (mem_cons_of_mem _ hq)) (fun q hq => ha q (mem_cons_of_mem _ hq)) hn
    apply this.congr_of_le
    intro s _
    simp only [mem_cons, exists_eq_or_imp, or_assoc]

theorem Over.coveringSeq (h : Over ps m) (ho : ∀ p ∈ ps, p.Ordered) (ha : ∀ p ∈ ps, p.Aligned cmp key) :
    Newest (fun s => ∃ p ∈ ps, p.Holds cmp key s) r (m.coveringSeq cmp key r).1 ∧
    Over ps (m.coveringSeq cmp key r).2 := by
  have hm {p : Pushed} (hp : p ∈ ps.filter fun p => p.windowStart < p.windowEnd) : p ∈ ps :=
    mem_of_mem_filter hp
  constructor
  case left =>
    have hn : Newest (fun _ => False) r none := fun _ _ => id
    apply (foldl_coveringSeq h (fun p hp => ho p (hm hp)) (fun p hp => ha p (hm hp)) hn).congr_of_le
    intro s _
    rw [false_or]
    constructor
    case mp =>
      rintro ⟨p, hp, hs⟩
      exact ⟨p, hm hp, hs⟩
    case mpr =>
      rintro ⟨p, hp, hs⟩
      refine ⟨p, mem_filter.mpr ⟨hp, ?_⟩, hs⟩
      by_contra hw
      exact Pushed.not_holds_of_window (ho p hp) (ha p hp) (by simpa using hw) hs
  case right =>
    simp only [Over, RangeMask.coveringSeq, map_map, forall₂_map_right_iff]
    apply ((forall₂_and_left _ _).mpr ⟨fun _ => hm, h⟩).imp
    exact fun p c hpc => hpc.2.seek (ho p hpc.1) (ha p hpc.1)

end RangeMask

def newestPushed (cmp : Comparator) (ps : List Pushed) (key : Bytes) (readSeq : Nat) : Option Nat :=
  ps.flatMap (·.visible cmp key readSeq) |>.max?

theorem newestPushed_newest :
    Newest (fun s => ∃ p ∈ ps, p.Holds cmp key s) r (newestPushed cmp ps key r) := by
  have hm (s : Nat) : s ∈ ps.flatMap (·.visible cmp key r) ↔ (∃ p ∈ ps, p.Holds cmp key s) ∧ s ≤ r := by
    simp only [mem_flatMap, Pushed.mem_visible]
    constructor
    case mp =>
      rintro ⟨p, hp, hs, hr⟩
      exact ⟨⟨p, hp, hs⟩, hr⟩
    case mpr =>
      rintro ⟨⟨p, hp, hs⟩, hr⟩
      exact ⟨p, hp, hs, hr⟩
  exact Newest.max? hm

-- Every query is answered as a look at every pushed fragment answers it, whatever was asked before.
theorem RangeMask.answers_history_independent (cmp : Comparator) (ps : List Pushed)
    (qs : List (Bytes × Nat)) (ho : ∀ p ∈ ps, p.Ordered) (ha : ∀ p ∈ ps, ∀ q ∈ qs, p.Aligned cmp q.1) :
    (ps.foldl pushSnapshot .empty).answers cmp qs = qs.map fun q => newestPushed cmp ps q.1 q.2 := by
  have hm := over_pushes ps
  revert hm
  generalize ps.foldl pushSnapshot .empty = m
  intro hm
  -- The queries are taken one by one, from whatever mask the ones before left.
  induction qs generalizing m
  case nil => rfl
  case cons q qs hi =>
    obtain ⟨hn, hm⟩ := hm.coveringSeq ho (fun p hp => ha p hp q (mem_cons_self ..)) (r := q.2)
    rw [answers, map_cons, hi (fun p hp q hq => ha p hp q (mem_cons_of_mem _ hq)) _ hm,
      hn.unique newestPushed_newest]

theorem bytewise_append (h : pre.length ≤ bound.length) :
    (bytewise (bound.take pre.length) pre).then (bytewise (bound.drop pre.length) key) =
      bytewise bound (pre ++ key) := by
  induction pre generalizing bound
  case nil => simp [bytewise, List.compareLex_nil_nil]
  case cons b pre hi =>
    cases bound
    case nil => simp at h
    case cons a bound =>
      have := hi (Nat.le_of_succ_le_succ h)
      simp only [bytewise, List.length_cons, List.take_succ_cons, List.drop_succ_cons,
        List.compareLex_cons_cons, List.cons_append, Ordering.then_assoc] at *
      rw [this]

theorem Pushed.aligned_bytewise (hp : p.keyPrefix = some pre) (hl : pre.length = 8) (hc : p.cmp = bytewise)
    (hb : ∀ f ∈ p.frags, 8 ≤ f.start.length ∧ 8 ≤ f.stop.length)
    (hlow : ∀ k ∈ p.lower, (p.cmp k (p.place key)).isLE) (hup : ∀ k ∈ p.upper, p.cmp (p.place key) k = .lt) :
    p.Aligned bytewise key := by
  have compare_eq (bound : Bytes) (hb : 8 ≤ bound.length) :
      p.cursor.compare bytewise bound key = p.cmp bound (p.place key) := by
    have : _ = bytewise bound (pre ++ key) := bytewise_append (hl.trans_le hb)
    rw [hl] at this
    rw [hc, place, hp, Option.getD_some, ← this, FragCursor.compare, show p.cursor.keyPrefix = _ from hp]
  exact ⟨fun f hf => compare_eq _ (hb f hf).1, fun f hf => compare_eq _ (hb f hf).2, hlow, hup⟩

def familyId : Bytes :=
  [0, 0, 0, 0, 0, 0, 0, 7]

def sharedDeletes (spans : List (Bytes × Bytes × Nat)) : Pushed where
  frags := spans.map fun (start, stop, seq) => ⟨familyId ++ start, familyId ++ stop, [seq]⟩
  cmp := bytewise
  lower := some familyId
  upper := some [0, 0, 0, 0, 0, 0, 0, 8]
  keyPrefix := some familyId

theorem sharedDeletes_ordered : (sharedDeletes [([67], [68], 2), ([97], [98], 1)]).Ordered :=
  ⟨inferInstanceAs (Std.TransCmp (List.compareLex compare)), by decide, by decide, by decide⟩

theorem RangeMask.answers_history_independent_jumps :
    let p := sharedDeletes [([67], [68], 2), ([97], [98], 1)]
    (pushSnapshot .empty p).answers bytewise [([97], 9), ([67], 9), ([120], 9), ([97], 9), ([67], 1)] =
      [some 1, some 2, none, some 1, none] := by
  intro p
  let qs : List (Bytes × Nat) := [([97], 9), ([67], 9), ([120], 9), ([97], 9), ([67], 1)]
  have hlow : ∀ q ∈ qs, ∀ k ∈ p.lower, (p.cmp k (p.place q.1)).isLE := by decide
  have hup : ∀ q ∈ qs, ∀ k ∈ p.upper, p.cmp (p.place q.1) k = .lt := by decide
  have ho : ∀ p' ∈ [p], p'.Ordered := fun _ h => mem_singleton.mp h ▸ sharedDeletes_ordered
  have ha : ∀ p' ∈ [p], ∀ q ∈ qs, p'.Aligned bytewise q.1 := by
    intro p' h q hq
    rw [mem_singleton.mp h]
    exact Pushed.aligned_bytewise rfl rfl rfl (by decide) (hlow q hq) (hup q hq)
  exact (answers_history_independent bytewise [p] qs ho ha).trans (by decide)

-- To a family that ignores case the same deletes are out of order: the cursor stops at the delete of
-- `["C", "D")`, which starts above "a", and never sees the one over "a" behind it.
theorem RangeMask.answers_miss_shared :
    let p := sharedDeletes [([67], [68], 2), ([97], [98], 1)]
    p.Ordered ∧
    (∀ k ∈ p.lower, (p.cmp k (p.place [97])).isLE) ∧ (∀ k ∈ p.upper, p.cmp (p.place [97]) k = .lt) ∧
    (pushSnapshot .empty p).answers caseInsensitive [([97], 9)] = [none] ∧
    newestPushed caseInsensitive [p] [97] 9 = some 1 :=
  ⟨sharedDeletes_ordered, by decide, by decide, by decide +kernel, by decide⟩

end OndaDb

import OndaDb.Txn.Commit

namespace OndaDb

open List

variable {K V : Type} [LinearOrder K]

namespace WriteEntry

variable {w : WriteEntry K V} {cf : Nat} {k : K}

theorem writes_iff : w.writes cf k ↔ ¬w.isRange ∧ w.slot = (cf, k) := by
  obtain ⟨_, op⟩ := w
  cases op <;> simp [writes, isRange, slot, key]

end WriteEntry

namespace Txn

open WriteEntry (writes_iff)

variable {W : List (WriteEntry K V)} {cf : Nat} {k : K}

def runOf (l : List (WriteEntry K V)) : List (WriteEntry K V) :=
  l.foldl (fun run w => if w.isMerge then run ++ [w] else [w]) []

omit [LinearOrder K] in
theorem runOf_concat : runOf (W ++ [w]) = if w.isMerge then runOf W ++ [w] else [w] := by
  simp [runOf]

omit [LinearOrder K] in
theorem runOf_subset : runOf W ⊆ W := by
  induction W using reverseRecOn
  case nil => exact List.Subset.refl _
  case append_singleton W w hi =>
    rw [runOf_concat]
    split
    · exact append_subset.mpr ⟨subset_append_of_subset_left _ hi,
        subset_append_right _ _⟩
    · exact subset_append_right _ _

omit [LinearOrder K] in
theorem runOf_eq_getLast? (h : ∀ w ∈ W, ¬w.isMerge) : runOf W = W.getLast?.toList := by
  rcases W.eq_nil_or_concat with rfl | ⟨W, w, rfl⟩
  · rfl
  · rw [concat_eq_append] at *
    rw [runOf_concat, if_neg (h w (by simp))]
    simp

section fold

def dedup (W : List (WriteEntry K V)) : Slots (Nat × K) (WriteEntry K V) :=
  W.foldl (fun s w => dedupStep s w w) Slots.empty

def runs (W : List (WriteEntry K V)) : Slots (Nat × K) (List (WriteEntry K V)) :=
  W.foldl (fun s w => runStep s w w) Slots.empty

theorem dedup_concat : dedup (W ++ [w]) = dedupStep (dedup W) w w := by
  simp [dedup]

theorem runs_concat : runs (W ++ [w]) = runStep (runs W) w w := by
  simp [runs]

theorem dedup_wellFormed : (dedup W).WellFormed := by
  induction W using reverseRecOn
  case nil => exact Slots.wellFormed_empty
  case append_singleton W w hi =>
    rw [dedup_concat, dedupStep]
    split
    · exact hi.push
    · exact hi.upsert

theorem runs_wellFormed : (runs W).WellFormed := by
  induction W using reverseRecOn
  case nil => exact Slots.wellFormed_empty
  case append_singleton W w hi =>
    rw [runs_concat, runStep]
    exact hi.upsert

theorem dedup_get? : (dedup W).get? (cf, k) = (W.filter (·.writes cf k)).getLast? := by
  induction W using reverseRecOn
  case nil => rfl
  case append_singleton W w hi =>
    rw [dedup_concat, dedupStep, filter_append]
    split
    case isTrue hr =>
      have hw : ¬w.writes cf k := fun h => (writes_iff.mp h).1 hr
      simp [Slots.get?_push dedup_wellFormed, hi, hw]
    case isFalse hr =>
      by_cases hk : w.slot = (cf, k)
      · have hw : w.writes cf k := writes_iff.mpr ⟨hr, hk⟩
        rw [← hk, Slots.get?_upsert_self dedup_wellFormed]
        cases (dedup W).get? w.slot <;> simp [hw]
      · have hw : ¬w.writes cf k := fun h => hk (writes_iff.mp h).2
        rw [Slots.get?_upsert_ne dedup_wellFormed (Ne.symm hk), hi]
        simp [hw]

theorem dedup_owns : (dedup W).Owns (cf, k) (·.writes cf k) := by
  induction W using reverseRecOn
  case nil => exact Slots.owns_empty
  case append_singleton W w hi =>
    rw [dedup_concat, dedupStep]
    split
    case isTrue hr => exact hi.push fun h => (writes_iff.mp h).1 hr
    case isFalse hr =>
      have hne : w.slot ≠ (cf, k) → ¬w.writes cf k := fun hne h => hne (writes_iff.mp h).2
      exact hi.upsert dedup_wellFormed hne fun h _ _ => hne h

theorem dedup_points (hm : ∀ w ∈ W, ¬w.isMerge) :
    (dedup W).slots.filter (·.writes cf k) = runOf (W.filter (·.writes cf k)) := by
  rw [dedup_owns.filter, dedup_get?, runOf_eq_getLast? fun w hw => hm w (mem_of_mem_filter hw)]
  cases hl : (W.filter (·.writes cf k)).getLast?
  case none => rfl
  case some w =>
    have hw : w.writes cf k := (mem_filter.mp (mem_of_getLast? hl)).2
    simp [Option.filter, hw]

theorem filter_modify {l : List α} {f : α → α} (h : ∀ a, l[i]? = some a → ¬p a ∧ ¬p (f a)) :
    (l.modify i f).filter p = l.filter p := by
  induction l generalizing i
  case nil => simp
  case cons a l hi =>
    cases i
    case zero =>
      obtain ⟨h₁, h₂⟩ := h a rfl
      rw [modify_zero_cons, filter_cons_of_neg h₂, filter_cons_of_neg h₁]
    case succ i =>
      rw [modify_succ_cons, filter_cons, filter_cons, hi fun b hb => h b hb]

theorem dedup_ranges : (dedup W).slots.filter (·.isRange) = W.filter (·.isRange) := by
  induction W using reverseRecOn
  case nil => rfl
  case append_singleton W w hi =>
    rw [dedup_concat, dedupStep, filter_append, ← hi]
    split
    case isTrue hr => simp [Slots.push, hr]
    case isFalse hr =>
      rw [Slots.upsert]
      split
      case h_1 => simp [hr]
      case h_2 i hs =>
        simp only [hr, Bool.false_eq_true, not_false_eq_true, filter_cons_of_neg,
          filter_nil, append_nil]
        refine filter_modify fun x hx => ⟨fun hc => ?_, hr⟩
        have hg : (dedup W).get? w.slot = some x := by simp [Slots.get?, hs, hx]
        rw [dedup_get?] at hg
        have hw := (mem_filter.mp (mem_of_getLast? hg)).2
        exact (writes_iff.mp hw).1 hc

theorem runs_get? : ((runs W).get? p).getD [] = runOf (W.filter (·.slot = p)) := by
  induction W using reverseRecOn
  case nil => rfl
  case append_singleton W w hi =>
    rw [runs_concat, runStep, filter_append]
    by_cases hk : w.slot = p
    · subst hk
      rw [Slots.get?_upsert_self runs_wellFormed]
      cases hg : (runs W).get? w.slot <;> simp_all [runOf_concat]
    · rw [Slots.get?_upsert_ne runs_wellFormed (Ne.symm hk), hi]
      simp [hk]

theorem runs_owns : (runs W).Owns p fun run => run.any (·.slot = p) := by
  induction W using reverseRecOn
  case nil => exact Slots.owns_empty
  case append_singleton W w hi =>
    rw [runs_concat, runStep]
    refine hi.upsert runs_wellFormed (fun hne => by simp [hne]) fun hne run hrun => ?_
    split <;> simp_all

theorem runs_flatten : (runs W).slots.flatten.filter (·.slot = p) = runOf (W.filter (·.slot = p)) := by
  have hall : ∀ w ∈ runOf (W.filter (·.slot = p)), w.slot = p := fun w hw =>
    of_decide_eq_true (mem_filter.mp (runOf_subset hw)).2
  -- Only the run of the key holds writes of it, and it holds nothing else.
  have hany : (runs W).slots.flatten.filter (·.slot = p) =
      ((runs W).slots.filter fun run => run.any (·.slot = p)).flatMap (·.filter (·.slot = p)) := by
    generalize (runs W).slots = l
    induction l
    case nil => rfl
    case cons run l hi =>
      rw [flatten_cons, filter_append, hi, filter_cons]
      split
      case isTrue => rfl
      case isFalse hr =>
        rw [filter_eq_nil_iff.mpr (by simpa using hr), nil_append]
  rw [hany, runs_owns.filter]
  rw [← runs_get?] at hall ⊢
  cases hg : (runs W).get? p
  case none => rfl
  case some run =>
    simp only [hg, Option.getD_some] at hall ⊢
    cases run
    case nil => rfl
    case cons w l =>
      have hs : (w :: l).any (·.slot = p) := by simp [hall w (by simp)]
      rw [Option.filter_some, if_pos hs, Option.toList_some, flatMap_singleton,
        filter_eq_self.mpr fun x hx => decide_eq_true (hall x hx)]

end fold

section order

def kept (W : List (WriteEntry K V)) : List (WriteEntry K V) :=
  if W.length = 1 then W
  else if W.any (·.isMerge) then (runs W).slots.flatten
  else (dedup W).slots

omit [LinearOrder K] in
theorem map_zipIdx_getElem? : W.zipIdx.map (fun w => (w.1, W[w.2]?)) = W.map fun w => (w, some w) := by
  refine ext_getElem? fun i => ?_
  cases hi : W[i]? <;> simp [hi]

theorem map_dedupStep {g : α → β} {w : WriteEntry K V} :
    (dedupStep s w a).map g = dedupStep (s.map g) w (g a) := by
  rw [dedupStep, dedupStep]
  split
  · exact Slots.map_push
  · exact Slots.map_upsert fun _ => rfl

theorem map_runStep {g : α → β} {w : WriteEntry K V} :
    (runStep s w a).map (map g) = runStep (s.map (map g)) w (g a) := by
  rw [runStep, runStep]
  exact Slots.map_upsert fun run => by split <;> simp

omit [LinearOrder K] in
-- A loop over the positions and the same loop over the writes, if both look the same once the
-- positions are looked up.
theorem foldl_zipIdx {S₁ S₂ S₃ : Type} {s₁ : S₁} {s₃ : S₃} {f₁ : S₁ → S₂} {f₃ : S₃ → S₂}
    {step₁ : S₁ → WriteEntry K V → Nat → S₁}
    {step₂ : S₂ → WriteEntry K V → Option (WriteEntry K V) → S₂}
    {step₃ : S₃ → WriteEntry K V → WriteEntry K V → S₃}
    (h₁ : ∀ s w i, f₁ (step₁ s w i) = step₂ (f₁ s) w W[i]?)
    (h₃ : ∀ s w, f₃ (step₃ s w w) = step₂ (f₃ s) w (some w)) (h : f₁ s₁ = f₃ s₃) :
    f₁ (W.zipIdx.foldl (fun s w => step₁ s w.1 w.2) s₁) =
      f₃ (W.foldl (fun s w => step₃ s w w) s₃) := by
  have hl : W.zipIdx.foldl (fun s w => step₂ s w.1 W[w.2]?) (f₁ s₁) =
      f₁ (W.zipIdx.foldl (fun s w => step₁ s w.1 w.2) s₁) :=
    foldl_hom f₁ fun s w => (h₁ s w.1 w.2).symm
  have hr : W.foldl (fun s w => step₂ s w (some w)) (f₃ s₃) =
      f₃ (W.foldl (fun s w => step₃ s w w) s₃) :=
    foldl_hom f₃ fun s w => (h₃ s w).symm
  have he := congrArg (foldl (fun s w => step₂ s w.1 w.2) (f₁ s₁))
    (map_zipIdx_getElem? (W := W))
  rw [foldl_map, foldl_map] at he
  rw [← hl, he, h, hr]

theorem map_deduplicatedWriteOrder : (deduplicatedWriteOrder W).map (W[·]?) = (kept W).map some := by
  rw [deduplicatedWriteOrder, kept]
  split
  case isTrue h =>
    obtain ⟨w, rfl⟩ := length_eq_one_iff.mp h
    rfl
  split
  case isTrue =>
    have h := congrArg Slots.slots (foldl_zipIdx (W := W)
      (fun s w i => map_runStep (g := (W[·]?)) (s := s) (w := w) (a := i))
      (fun s w => map_runStep (g := some) (s := s) (w := w) (a := w))
      (show Slots.map _ Slots.empty = Slots.map _ Slots.empty from rfl))
    rw [mergeAwareWriteOrder, runs, map_flatten, map_flatten]
    exact congrArg flatten h
  exact congrArg Slots.slots (foldl_zipIdx (W := W)
    (fun s w i => map_dedupStep (g := (W[·]?)) (s := s) (w := w) (a := i))
    (fun s w => map_dedupStep (g := some) (s := s) (w := w) (a := w))
    (show Slots.map _ Slots.empty = Slots.map _ Slots.empty from rfl))

theorem length_deduplicatedWriteOrder : (deduplicatedWriteOrder W).length = (kept W).length := by
  simpa using congrArg length (map_deduplicatedWriteOrder (W := W))

theorem filterMap_zipIdx {l : List α} {l' : List β} (h : l.map g = l'.map some) :
    (l.zipIdx n).filterMap (fun i => (g i.1).map (·, i.2)) = l'.zipIdx n := by
  induction l generalizing l' n
  case nil => cases l' <;> simp_all
  case cons a l hi =>
    cases l'
    case nil => simp at h
    case cons b l' =>
      simp only [map_cons, cons.injEq] at h
      simp [h.1, hi h.2]

theorem slotted_order : slotted W (deduplicatedWriteOrder W) start = (kept W).zipIdx start :=
  filterMap_zipIdx map_deduplicatedWriteOrder

theorem kept_subset : kept W ⊆ W := by
  intro w hw
  have : some w ∈ (deduplicatedWriteOrder W).map (W[·]?) := by
    rw [map_deduplicatedWriteOrder]
    exact mem_map_of_mem hw
  obtain ⟨i, _, hi⟩ := mem_map.mp this
  exact mem_of_getElem? hi

end order

section kept

def NoOverlap (W : List (WriteEntry K V)) : Prop :=
  ∀ w ∈ W, ¬w.isRange → ∀ r ∈ W, ¬r.covers w.cf w.key

theorem ownRangeOverlap_eq_none : ownRangeOverlap W = none ↔ NoOverlap W := by
  simp only [ownRangeOverlap, findSome?_eq_none_iff, mem_filter, NoOverlap]
  constructor
  · intro h w hw hr r hrW hc
    have := h w ⟨hw, by simpa using hr⟩ r hrW
    obtain ⟨_, op⟩ := r
    cases op
    case point => simp [WriteEntry.covers] at hc
    case range => simp [hc] at this
  · rintro h w ⟨hw, hr⟩ r hrW
    have := h w hw (by simpa using hr) r hrW
    obtain ⟨_, op⟩ := r
    cases op <;> simp [this]

def RangesNonempty (W : List (WriteEntry K V)) : Prop :=
  ∀ r ∈ W, r.isRange → r.covers r.cf r.key

theorem NoOverlap.filter_slot (h : NoOverlap W) (hr : RangesNonempty W) (hw : w ∈ W)
    (hk : w.writes cf k) : W.filter (·.slot = (cf, k)) = W.filter (·.writes cf k) := by
  refine filter_congr fun x hx => ?_
  rw [Bool.eq_iff_iff, decide_eq_true_eq, writes_iff]
  refine ⟨fun hs => ⟨fun hxr => ?_, hs⟩, And.right⟩
  have he : x.slot = w.slot := hs.trans (writes_iff.mp hk).2.symm
  have hc := hr x hx hxr
  rw [show x.cf = w.cf from congrArg Prod.fst he, show x.key = w.key from congrArg Prod.snd he] at hc
  exact h w hw (writes_iff.mp hk).1 x hx hc

theorem kept_points (h : NoOverlap W) (hr : RangesNonempty W) :
    (kept W).filter (·.writes cf k) = runOf (W.filter (·.writes cf k)) := by
  rw [kept]
  split
  case isTrue hl =>
    obtain ⟨w, rfl⟩ := length_eq_one_iff.mp hl
    cases hw : w.writes cf k <;> simp [hw, runOf]
  split
  case isFalse hm => exact dedup_points (by simpa using hm)
  have hs := runs_flatten (W := W) (p := (cf, k))
  by_cases hw : ∃ w ∈ W, w.writes cf k
  · obtain ⟨w, hw, hk⟩ := hw
    rw [h.filter_slot hr hw hk] at hs
    have hp : ((runs W).slots.flatten.filter (·.slot = (cf, k))).filter (·.writes cf k) =
        (runs W).slots.flatten.filter (·.writes cf k) := by
      rw [filter_filter]
      refine filter_congr fun x _ => ?_
      cases hx : x.writes cf k
      · rfl
      · simp [(writes_iff.mp hx).2]
    rw [← hp, hs, filter_eq_self]
    exact fun x hx => (mem_filter.mp (runOf_subset hx)).2
  · have hn : W.filter (·.writes cf k) = [] := filter_eq_nil_iff.mpr fun x hx hk =>
      hw ⟨x, hx, hk⟩
    rw [hn, runOf, foldl_nil, filter_eq_nil_iff]
    intro x hx hk
    have hxs : x ∈ (runs W).slots.flatten.filter (·.slot = (cf, k)) :=
      mem_filter.mpr ⟨hx, decide_eq_true (writes_iff.mp hk).2⟩
    rw [hs] at hxs
    exact hw ⟨x, mem_of_mem_filter (runOf_subset hxs), hk⟩

def LastOver (W : List (WriteEntry K V)) (cf : Nat) (k : K) : Prop :=
  ∃ l₁ r l₂, W = l₁ ++ r :: l₂ ∧ r.covers cf k ∧ ∀ w ∈ l₂, w.slot ≠ r.slot

theorem getLast?_filter_eq_some :
    (l.filter p).getLast? = some a ↔ p a ∧ ∃ l₁ l₂, l = l₁ ++ a :: l₂ ∧ ∀ b ∈ l₂, ¬p b := by
  rw [getLast?_filter, find?_eq_some_iff_append]
  refine and_congr_right fun _ => ⟨?_, ?_⟩
  · rintro ⟨as, bs, h, hn⟩
    refine ⟨bs.reverse, as.reverse, ?_, by simpa using hn⟩
    simpa using congrArg reverse h
  · rintro ⟨l₁, l₂, rfl, hn⟩
    exact ⟨l₂.reverse, l₁.reverse, by simp, by simpa using hn⟩

theorem covers_isRange {w : WriteEntry K V} (h : w.covers cf k) : w.isRange ∧ w.cf = cf := by
  obtain ⟨_, op⟩ := w
  cases op <;> simp_all [WriteEntry.covers, WriteEntry.isRange]

theorem mem_runs_flatten (h : NoOverlap W) (hr : RangesNonempty W) (hw : w ∈ W) (hx : w.isRange) :
    w ∈ (runs W).slots.flatten ↔ ∃ l₁ l₂, W = l₁ ++ w :: l₂ ∧ ∀ x ∈ l₂, x.slot ≠ w.slot := by
  have hnm : ∀ x ∈ W.filter (·.slot = w.slot), ¬x.isMerge := by
    intro x hxW hm
    obtain ⟨hxW, hs⟩ := mem_filter.mp hxW
    have hxr : ¬x.isRange := by
      obtain ⟨_, op⟩ := x
      cases op <;> simp_all [WriteEntry.isMerge, WriteEntry.isRange]
    have hc := hr w hw hx
    have he : w.slot = x.slot := (of_decide_eq_true hs).symm
    rw [show w.cf = x.cf from congrArg Prod.fst he, show w.key = x.key from congrArg Prod.snd he] at hc
    exact h x hxW hxr w hw hc
  have hmem : w ∈ (runs W).slots.flatten ↔
      w ∈ (runs W).slots.flatten.filter (·.slot = w.slot) := by simp
  rw [hmem, runs_flatten, runOf_eq_getLast? hnm, Option.mem_toList,
    getLast?_filter_eq_some]
  simp

theorem kept_covers_iff (h : NoOverlap W) (hr : RangesNonempty W) :
    (∃ w ∈ kept W, w.covers cf k) ↔
      if W.any (·.isMerge) then LastOver W cf k else ∃ w ∈ W, w.covers cf k := by
  rw [kept]
  split
  case isTrue hl =>
    obtain ⟨w, rfl⟩ := length_eq_one_iff.mp hl
    split
    case isFalse => rfl
    case isTrue hm =>
      -- A single operand covers nothing.
      have hc : ¬w.covers cf k := by
        obtain ⟨_, op⟩ := w
        cases op <;> simp_all [WriteEntry.isMerge, WriteEntry.covers]
      refine ⟨fun ⟨x, hx, hk⟩ => absurd (mem_singleton.mp hx ▸ hk) hc, ?_⟩
      rintro ⟨l₁, r, l₂, he, hk, _⟩
      have : r ∈ [w] := he ▸ by simp
      exact absurd (mem_singleton.mp this ▸ hk) hc
  split
  case isTrue =>
    constructor
    · rintro ⟨w, hw, hk⟩
      have hwW : w ∈ W := by
        have : w ∈ (runs W).slots.flatten.filter (·.slot = w.slot) := by simpa using hw
        rw [runs_flatten] at this
        exact mem_of_mem_filter (runOf_subset this)
      obtain ⟨l₁, l₂, he, hl⟩ := (mem_runs_flatten h hr hwW (covers_isRange hk).1).mp hw
      exact ⟨l₁, w, l₂, he, hk, hl⟩
    · rintro ⟨l₁, r, l₂, he, hk, hl⟩
      have hrW : r ∈ W := he ▸ by simp
      exact ⟨r, (mem_runs_flatten h hr hrW (covers_isRange hk).1).mpr ⟨l₁, l₂, he, hl⟩, hk⟩
  have hmem : ∀ w, w.covers cf k → (w ∈ (dedup W).slots ↔ w ∈ W) := by
    intro w hk
    have hx := (covers_isRange hk).1
    rw [← and_iff_left (a := w ∈ W) hx, ← and_iff_left (a := w ∈ (dedup W).slots) hx,
      ← mem_filter, ← mem_filter, dedup_ranges]
  exact exists_congr fun w => and_congr_left fun hk => hmem w hk

end kept

end Txn

end OndaDb

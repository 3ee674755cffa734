import OndaDb.Lib.Window
import OndaDb.RangeTombstone.Theorems.Fragment

namespace OndaDb

open List

variable {K : Type} [LinearOrder K]

theorem mem_fragmentBounds {spans : List (Span K)} :
    x ∈ fragmentBounds spans lower upper ↔ ∃ s ∈ spans,
      clipLow lower s.start < clipHigh upper s.stop ∧
      (x = clipLow lower s.start ∨ x = clipHigh upper s.stop) := by
  simp only [fragmentBounds, mem_dedup, mem_insertionSort, mem_flatMap, Span.bounds]
  refine exists_congr fun s => and_congr_right fun _ => ?_
  split <;> simp_all

theorem fragmentBounds_sorted (spans : List (Span K)) (lower upper : Option K) :
    (fragmentBounds spans lower upper).Pairwise (· < ·) := by
  unfold fragmentBounds
  generalize spans.flatMap (Span.bounds lower upper) = bs
  have hs := (bs.pairwise_insertionSort (· ≤ ·)).sublist (dedup_sublist _)
  exact hs.and (nodup_dedup _) |>.imp fun h => lt_of_le_of_ne h.1 h.2

theorem mem_coveringSeqs {spans : List (Span K)} :
    s ∈ coveringSeqs spans a b ↔ ∃ sp ∈ spans, (sp.start ≤ a ∧ b ≤ sp.stop) ∧ sp.seq = s := by
  simp [coveringSeqs, and_assoc]

theorem coveringSeqs_desc (spans : List (Span K)) (a b : K) :
    (coveringSeqs spans a b).Pairwise (· > ·) := by
  unfold coveringSeqs
  generalize (spans.filter _).map Span.seq = ss
  have hs := (ss.pairwise_insertionSort (· ≥ ·)).sublist (dedup_sublist _)
  exact hs.and (nodup_dedup _) |>.imp fun h => lt_of_le_of_ne h.1 h.2.symm

structure Emitted (out : List (Fragment K)) (a : K) : Prop where
  fragmented : Fragmented out.reverse
  le : ∀ f ∈ out, f.stop ≤ a

namespace Emitted

variable {out : List (Fragment K)}

theorem mono (h : Emitted out a) (hab : a ≤ b) : Emitted out b :=
  ⟨h.fragmented, fun f hf => (h.le f hf).trans hab⟩

theorem cons (h : Emitted out f.start) (hf : f.WellFormed) : Emitted (f :: out) f.stop := by
  refine ⟨⟨?_, ?_⟩, ?_⟩
  case refine_1 =>
    intro g hg
    rcases mem_cons.mp (mem_reverse.mp hg) with rfl | hg
    · exact hf
    · exact h.fragmented.wf g (mem_reverse.mpr hg)
  case refine_2 =>
    rw [reverse_cons, pairwise_append]
    exact ⟨h.fragmented.sorted, pairwise_singleton .., by simpa using h.le⟩
  case refine_3 =>
    intro g hg
    rcases mem_cons.mp hg with rfl | hg
    · exact le_rfl
    · exact (h.le g hg).trans hf.nonempty.le

theorem tail (h : Emitted (f :: out) a) : Emitted out f.start := by
  have hs := h.fragmented.sorted
  rw [reverse_cons, pairwise_append] at hs
  refine ⟨⟨fun g hg => h.fragmented.wf g ?_, hs.1⟩, by simpa using hs.2.2⟩
  exact mem_reverse.mpr (mem_cons_of_mem _ (mem_reverse.mp hg))

theorem head (h : Emitted (f :: out) a) : f.WellFormed :=
  h.fragmented.wf f (by simp)

theorem push (h : Emitted out a) (hab : a < b) (hs : seqs.Pairwise (· > ·)) :
    Emitted (pushFragment seqs a b out) b := by
  unfold pushFragment
  split
  case isTrue => exact h.mono hab.le
  case isFalse hne =>
    split
    case h_1 => exact h.cons (f := ⟨a, b, seqs⟩) ⟨hab, hne, hs⟩
    case h_2 prev out =>
      split
      case isTrue he =>
        -- The previous fragment abuts and carries the same stack: it grows.
        have hlt := h.head.nonempty.trans (he.2 ▸ hab)
        exact h.tail.cons (f := { prev with stop := b }) ⟨hlt, h.head.seqs, h.head.desc⟩
      case isFalse => exact h.cons (f := ⟨a, b, seqs⟩) ⟨hab, hne, hs⟩

theorem covered_pushFragment (h : Emitted out a) (hab : a < b) :
    Covered (pushFragment seqs a b out) k s ↔
      Covered out k s ∨ (a ≤ k ∧ k < b) ∧ s ∈ seqs := by
  unfold pushFragment
  split
  case isTrue hs => simp [hs]
  split
  case h_1 => simp [Fragment.Contains]
  case h_2 prev out =>
    split
    case isTrue he =>
      have hlt := h.head.nonempty
      simp only [covered_cons, Fragment.Contains, ← he.1, ← he.2]
      have hk : prev.start ≤ k ∧ k < b ↔
          prev.start ≤ k ∧ k < prev.stop ∨ prev.stop ≤ k ∧ k < b := by
        constructor
        · rintro ⟨h₁, h₂⟩
          exact (lt_or_ge k prev.stop).imp (⟨h₁, ·⟩) (⟨·, h₂⟩)
        · rintro (⟨h₁, h₂⟩ | ⟨h₁, h₂⟩)
          · exact ⟨h₁, h₂.trans (he.2 ▸ hab)⟩
          · exact ⟨hlt.le.trans h₁, h₂⟩
      rw [hk]
      tauto
    simp only [covered_cons, Fragment.Contains]
    tauto

end Emitted

theorem fragmentSpans.go_spec (spans : List (Span K)) (hb : bs.Pairwise (· < ·))
    (ho : ∀ b ∈ bs.head?, Emitted out b) (hf : Fragmented out.reverse) :
    Fragmented (go spans out bs).reverse ∧ ∀ k s, Covered (go spans out bs) k s ↔
      Covered out k s ∨ ∃ a b, [a, b] <:+: bs ∧ (a ≤ k ∧ k < b) ∧ s ∈ coveringSeqs spans a b := by
  induction bs generalizing out
  case nil => simp [go, hf]
  case cons a bs hi =>
    cases bs
    case nil =>
      refine ⟨hf, fun k s => ?_⟩
      have : ∀ x y, ¬[x, y] <:+: [a] := fun x y h => by simpa using h.length_le
      simp [go, this]
    case cons b bs =>
      have hab : a < b := window_lt hb ⟨[], bs, rfl⟩
      have ha := ho a rfl
      have hp := ha.push hab (coveringSeqs_desc spans a b)
      obtain ⟨h₁, h₂⟩ := hi hb.tail (by simpa using hp) hp.fragmented
      refine ⟨h₁, fun k s => ?_⟩
      rw [go, h₂, ha.covered_pushFragment hab, or_assoc]
      refine or_congr_right ?_
      constructor
      · rintro (h | ⟨x, y, hw, h⟩)
        · exact ⟨a, b, ⟨[], bs, rfl⟩, h⟩
        · exact ⟨x, y, hw.trans (suffix_cons ..).isInfix, h⟩
      · rintro ⟨x, y, hw, h⟩
        rcases infix_cons_iff.mp hw with hw | hw
        · obtain ⟨rfl, hy⟩ := cons_prefix_cons.mp hw
          obtain ⟨rfl, -⟩ := cons_prefix_cons.mp hy
          exact .inl h
        · exact .inr ⟨x, y, hw, h⟩

theorem inInterval_of_fragmentBounds {spans : List (Span K)}
    (hx : x ∈ fragmentBounds spans lower upper) :
    (∀ l ∈ lower, l ≤ x) ∧ ∀ u ∈ upper, x ≤ u := by
  obtain ⟨s, _, hlt, hx⟩ := mem_fragmentBounds.mp hx
  have hl : ∀ l ∈ lower, l ≤ clipLow lower s.start := (clipLow_le_iff.mp le_rfl).right
  have hu : ∀ u ∈ upper, clipHigh upper s.stop ≤ u := by
    intro u hu
    by_contra hc
    exact absurd (lt_clipHigh_iff.mp (not_le.mp hc) |>.right u hu) (lt_irrefl _)
  rcases hx with rfl | rfl
  · exact ⟨hl, fun u h => hlt.le.trans (hu u h)⟩
  · exact ⟨fun l h => (hl l h).trans hlt.le, hu⟩

theorem mem_coveringSeqs_window {spans : List (Span K)}
    (hw : [a, b] <:+: fragmentBounds spans lower upper) (hk : a ≤ k ∧ k < b) :
    s ∈ coveringSeqs spans a b ↔ RangeDeleted spans k s ∧ InInterval lower upper k := by
  have hs := fragmentBounds_sorted spans lower upper
  have ha := inInterval_of_fragmentBounds (hw.subset (show a ∈ [a, b] by simp)) |>.left
  have hb := inInterval_of_fragmentBounds (hw.subset (show b ∈ [a, b] by simp)) |>.right
  have hi : InInterval lower upper k :=
    ⟨fun l hl => (ha l hl).trans hk.1, fun u hu => hk.2.trans_le (hb u hu)⟩
  rw [mem_coveringSeqs, and_iff_left hi]
  refine exists_congr fun sp => and_congr_right fun hsp => and_congr_left fun _ => ?_
  refine ⟨fun h => ⟨h.1.trans hk.1, hk.2.trans_le h.2⟩, fun h => ?_⟩
  have h₁ : clipLow lower sp.start ≤ k := clipLow_le_iff.mpr ⟨h.1, hi.1⟩
  have h₂ : k < clipHigh upper sp.stop := lt_clipHigh_iff.mpr ⟨h.2, hi.2⟩
  have mem {x} (hx : x = clipLow lower sp.start ∨ x = clipHigh upper sp.stop) :=
    mem_fragmentBounds.mpr ⟨sp, hsp, h₁.trans_lt h₂, hx⟩
  constructor
  · rcases window_gap hs hw (mem (.inl rfl)) with h | h
    · exact le_clipLow.trans h
    · exact absurd (h.trans h₁) (not_le.mpr hk.2)
  · rcases window_gap hs hw (mem (.inr rfl)) with h | h
    · exact absurd (hk.1.trans_lt h₂) (not_lt.mpr h)
    · exact h.trans clipHigh_le

theorem fragmentSpans_spec {spans : List (Span K)} :
    Fragmented (fragmentSpans spans lower upper) ∧
    ∀ k s, Covered (fragmentSpans spans lower upper) k s ↔ ∃ a b,
      [a, b] <:+: fragmentBounds spans lower upper ∧ (a ≤ k ∧ k < b) ∧ s ∈ coveringSeqs spans a b := by
  have hn : ∀ b ∈ (fragmentBounds spans lower upper).head?, Emitted [] b :=
    fun _ _ => ⟨.nil, by simp⟩
  obtain ⟨h₁, h₂⟩ := fragmentSpans.go_spec spans (fragmentBounds_sorted ..) hn .nil
  exact ⟨h₁, fun k s => by rw [fragmentSpans, covered_reverse, h₂]; simp⟩

theorem fragmentSpans_fragmented {spans : List (Span K)} :
    Fragmented (fragmentSpans spans lower upper) :=
  fragmentSpans_spec.left

theorem covered_fragmentSpans {spans : List (Span K)} :
    Covered (fragmentSpans spans lower upper) k s ↔
      RangeDeleted spans k s ∧ InInterval lower upper k := by
  rw [fragmentSpans_spec.right]
  refine ⟨fun ⟨a, b, hw, hk, h⟩ => mem_coveringSeqs_window hw hk |>.mp h, fun h => ?_⟩
  obtain ⟨⟨sp, hsp, hc, hs⟩, hi⟩ := h
  have h₁ : clipLow lower sp.start ≤ k := clipLow_le_iff.mpr ⟨hc.1, hi.1⟩
  have h₂ : k < clipHigh upper sp.stop := lt_clipHigh_iff.mpr ⟨hc.2, hi.2⟩
  have mem {x} (hx : x = clipLow lower sp.start ∨ x = clipHigh upper sp.stop) :=
    mem_fragmentBounds.mpr ⟨sp, hsp, h₁.trans_lt h₂, hx⟩
  obtain ⟨a, b, hw, hk⟩ :=
    exists_window (fragmentBounds_sorted ..) (mem (.inl rfl)) h₁ (mem (.inr rfl)) h₂
  exact ⟨a, b, hw, hk, mem_coveringSeqs_window hw hk |>.mpr ⟨⟨sp, hsp, hc, hs⟩, hi⟩⟩

theorem fragmentSpans.go_stop {spans : List (Span K)} (hf : f ∈ go spans out bs) :
    (∃ g ∈ out, f.stop = g.stop) ∨ f.stop ∈ bs := by
  induction bs generalizing out
  case nil => exact .inl ⟨f, hf, rfl⟩
  case cons a bs hi =>
    cases bs
    case nil => exact .inl ⟨f, hf, rfl⟩
    case cons b bs =>
      have hpush : ∀ g ∈ pushFragment (coveringSeqs spans a b) a b out,
          (∃ g' ∈ out, g.stop = g'.stop) ∨ g.stop = b := by
        intro g hg
        unfold pushFragment at hg
        split at hg
        case isTrue => exact .inl ⟨g, hg, rfl⟩
        split at hg
        case h_1 => exact .inr (by rw [mem_singleton.mp hg])
        case h_2 =>
          split at hg <;> rcases mem_cons.mp hg with rfl | hg
          · exact .inr rfl
          · exact .inl ⟨g, mem_cons_of_mem _ hg, rfl⟩
          · exact .inr rfl
          · exact .inl ⟨g, hg, rfl⟩
      rcases hi hf with ⟨g, hg, he⟩ | hm
      · rcases hpush g hg with ⟨g', hg', he'⟩ | hb
        · exact .inl ⟨g', hg', he.trans he'⟩
        · exact .inr (by simp [he, hb])
      · exact .inr (mem_cons_of_mem _ hm)

theorem stop_le_of_mem_fragmentSpans {spans : List (Span K)}
    (hf : f ∈ fragmentSpans spans lower upper) :
    (∃ s ∈ spans, f.stop ≤ s.stop) ∧ ∀ u ∈ upper, f.stop ≤ u := by
  have hm : f.stop ∈ fragmentBounds spans lower upper :=
    (fragmentSpans.go_stop (mem_reverse.mp hf)).resolve_left (by simp)
  refine ⟨?_, (inInterval_of_fragmentBounds hm).2⟩
  obtain ⟨s, hs, hlt, h | h⟩ := mem_fragmentBounds.mp hm
  · exact ⟨s, hs, h ▸ hlt.le.trans clipHigh_le⟩
  · exact ⟨s, hs, h ▸ clipHigh_le⟩

theorem rangeDeleted_spansOfFragments {fs : List (Fragment K)} :
    RangeDeleted (spansOfFragments fs) k s ↔ Covered fs k s := by
  simp only [RangeDeleted, spansOfFragments, mem_flatMap, mem_map]
  constructor
  · rintro ⟨_, ⟨f, hf, t, ht, rfl⟩, hc, rfl⟩
    exact ⟨f, hf, hc, ht⟩
  · rintro ⟨f, hf, hc, hs⟩
    exact ⟨_, ⟨f, hf, s, hs, rfl⟩, hc, rfl⟩

end OndaDb

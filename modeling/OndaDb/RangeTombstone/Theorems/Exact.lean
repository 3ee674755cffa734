import OndaDb.RangeTombstone.Theorems.FragmentSpans

namespace OndaDb

variable {K : Type} [LinearOrder K] {spans : List (Span K)} {lower upper : Option K}

def newestSpan (spans : List (Span K)) (k : K) (readSeq : Nat) : Option Nat :=
  spans.filter (fun s => s.Contains k ∧ s.seq ≤ readSeq) |>.map Span.seq |>.max?

theorem newestSpan_newest : Newest (RangeDeleted spans k) r (newestSpan spans k r) := by
  have hm (s : Nat) : s ∈ (spans.filter fun s => s.Contains k ∧ s.seq ≤ r).map Span.seq ↔
      RangeDeleted spans k s ∧ s ≤ r := by
    simp only [List.mem_map, List.mem_filter, decide_eq_true_eq, RangeDeleted]
    constructor
    case mp =>
      rintro ⟨sp, ⟨hsp, hc, hr⟩, hs⟩
      exact ⟨⟨sp, hsp, hc, hs⟩, hs ▸ hr⟩
    case mpr =>
      rintro ⟨⟨sp, hsp, hc, hs⟩, hr⟩
      exact ⟨sp, ⟨hsp, hc, hs ▸ hr⟩, hs⟩
  exact Newest.max? hm

theorem coveringSeqIn_fragmentSpans (hk : InInterval lower upper k) :
    coveringSeqIn (fragmentSpans spans lower upper) k r = newestSpan spans k r := by
  apply Newest.unique fragmentSpans_fragmented.coveringSeqIn_newest
  exact newestSpan_newest.congr_of_le fun s _ => by simp [covered_fragmentSpans, hk]

theorem visibleSeq_fragmentSpans (hk : InInterval lower upper k)
    (hf : f ∈ fragmentSpans spans lower upper) (hc : f.Contains k) :
    f.visibleSeq r = newestSpan spans k r := by
  have hd := (fragmentSpans_fragmented.wf f hf).desc
  apply Newest.unique (Fragment.visibleSeq_newest hd)
  refine newestSpan_newest.congr_of_le fun s _ => ?_
  rw [← fragmentSpans_fragmented.covered_iff hf hc, covered_fragmentSpans, and_iff_left hk]

theorem coveringSeqIn_refragment :
    coveringSeqIn (fragmentSpans (spansOfFragments (fragmentSpans spans lower upper)) none none) k r =
      coveringSeqIn (fragmentSpans spans lower upper) k r := by
  apply Newest.unique fragmentSpans_fragmented.coveringSeqIn_newest
  refine fragmentSpans_fragmented.coveringSeqIn_newest.congr_of_le fun s _ => ?_
  exact (covered_fragmentSpans.trans (by simp [rangeDeleted_spansOfFragments])).symm

-- Fragments are non-empty, sorted and disjoint with descending stacks. Together they answer inside
-- the clip what the spans they were made of answer, and what fragments of their own spans answer
-- anywhere.
theorem fragmentSpans_exact (spans : List (Span K)) (lower upper : Option K) :
    (∀ f ∈ fragmentSpans spans lower upper,
      f.start < f.stop ∧ f.seqs ≠ [] ∧ f.seqs.Pairwise (· > ·)) ∧
    (fragmentSpans spans lower upper).Pairwise (fun f g => f.start < g.start ∧ f.stop ≤ g.start) ∧
    (∀ k r, InInterval lower upper k →
      coveringSeqIn (fragmentSpans spans lower upper) k r = newestSpan spans k r ∧
      ∀ f ∈ fragmentSpans spans lower upper, f.Contains k → f.visibleSeq r = newestSpan spans k r) ∧
    ∀ k r, coveringSeqIn (fragmentSpans (spansOfFragments (fragmentSpans spans lower upper)) none none)
        k r = coveringSeqIn (fragmentSpans spans lower upper) k r := by
  have hf : Fragmented (fragmentSpans spans lower upper) := fragmentSpans_fragmented
  refine ⟨fun f h => ⟨(hf.wf f h).nonempty, (hf.wf f h).seqs, (hf.wf f h).desc⟩, ?_, ?_, ?_⟩
  · apply hf.sorted.imp_of_mem
    intro f g hm _ hfg
    exact ⟨(hf.wf f hm).nonempty.trans_le hfg, hfg⟩
  · exact fun k r hk => ⟨coveringSeqIn_fragmentSpans hk, fun f hm hc => visibleSeq_fragmentSpans hk hm hc⟩
  · exact fun k r => coveringSeqIn_refragment

-- Two deletes that overlap, one that is empty and one outside the clip, at a key below both of the
-- first two and at one that only the second covers.
theorem fragmentSpans_exact_overlap :
    let spans : List (Span Nat) := [⟨2, 6, 5⟩, ⟨4, 9, 8⟩, ⟨3, 3, 9⟩, ⟨20, 30, 7⟩]
    coveringSeqIn (fragmentSpans spans (some 3) (some 12)) 5 6 = some 5 ∧
    coveringSeqIn (fragmentSpans spans (some 3) (some 12)) 8 6 = none := by
  intro spans
  have h := (fragmentSpans_exact spans (some 3) (some 12)).2.2.1
  have h₅ := (h 5 6 (by simp [InInterval])).1
  have h₈ := (h 8 6 (by simp [InInterval])).1
  exact ⟨h₅.trans (by decide), h₈.trans (by decide)⟩

end OndaDb

import OndaDb.RangeTombstone.Basic

namespace OndaDb

open List

variable {K : Type} [LinearOrder K]

def Span.Contains (s : Span K) (k : K) : Prop :=
  s.start ≤ k ∧ k < s.stop

def Fragment.Contains (f : Fragment K) (k : K) : Prop :=
  f.start ≤ k ∧ k < f.stop

@[mk_iff]
structure Fragment.WellFormed (f : Fragment K) : Prop where
  nonempty : f.start < f.stop
  seqs : f.seqs ≠ []
  desc : f.seqs.Pairwise (· > ·)

@[mk_iff]
structure Fragmented (fs : List (Fragment K)) : Prop where
  wf : ∀ f ∈ fs, f.WellFormed
  sorted : fs.Pairwise (fun f g => f.stop ≤ g.start)

def Covered (fs : List (Fragment K)) (k : K) (s : Nat) : Prop :=
  ∃ f ∈ fs, f.Contains k ∧ s ∈ f.seqs

def RangeDeleted (spans : List (Span K)) (k : K) (s : Nat) : Prop :=
  ∃ sp ∈ spans, sp.Contains k ∧ sp.seq = s

instance {f : Fragment K} : Decidable f.WellFormed :=
  decidable_of_iff' _ f.wellFormed_iff

instance {fs : List (Fragment K)} : Decidable (Fragmented fs) :=
  decidable_of_iff' _ (fragmented_iff fs)

instance {f : Fragment K} : Decidable (f.Contains k) :=
  inferInstanceAs (Decidable (_ ∧ _))

instance {s : Span K} : Decidable (s.Contains k) :=
  inferInstanceAs (Decidable (_ ∧ _))

instance {fs : List (Fragment K)} : Decidable (Covered fs k s) :=
  inferInstanceAs (Decidable (∃ f ∈ fs, _ ∧ _))

@[simp]
theorem covered_nil : ¬Covered ([] : List (Fragment K)) k s := by
  simp [Covered]

@[simp]
theorem covered_cons {fs : List (Fragment K)} :
    Covered (f :: fs) k s ↔ f.Contains k ∧ s ∈ f.seqs ∨ Covered fs k s := by
  simp [Covered]

@[simp]
theorem covered_append {fs gs : List (Fragment K)} :
    Covered (fs ++ gs) k s ↔ Covered fs k s ∨ Covered gs k s := by
  simp only [Covered, mem_append, or_and_right, exists_or]

@[simp]
theorem covered_reverse {fs : List (Fragment K)} : Covered fs.reverse k s ↔ Covered fs k s := by
  simp [Covered]

namespace Fragment

omit [LinearOrder K] in
theorem visibleSeq_newest {f : Fragment K} (h : f.seqs.Pairwise (· > ·)) :
    Newest (· ∈ f.seqs) r (f.visibleSeq r) :=
  Newest.find? h

end Fragment

namespace Fragmented

theorem nil : Fragmented ([] : List (Fragment K)) :=
  ⟨by simp, .nil⟩

theorem tail {fs : List (Fragment K)} (h : Fragmented (f :: fs)) : Fragmented fs :=
  ⟨fun g hg => h.wf g (mem_cons_of_mem _ hg), pairwise_cons.mp h.sorted |>.right⟩

theorem not_covered_tail {fs : List (Fragment K)} (h : Fragmented (f :: fs)) (hk : k < f.stop) :
    ¬Covered fs k s := by
  rintro ⟨g, hg, hc, _⟩
  have := pairwise_cons.mp h.sorted |>.left g hg
  exact absurd hc.1 (not_le.mpr (hk.trans_le this))

theorem eq_of_contains {fs : List (Fragment K)} (h : Fragmented fs) (hf : f ∈ fs) (hg : g ∈ fs)
    (hfk : f.Contains k) (hgk : g.Contains k) : f = g := by
  have apart {f g : Fragment K} (hfg : f.stop ≤ g.start) (hf : f.Contains k) : ¬g.Contains k :=
    fun hg => lt_irrefl k (hf.2.trans_le (hfg.trans hg.1))
  induction fs
  case nil => simp at hf
  case cons d fs hi =>
    have hd := pairwise_cons.mp h.sorted |>.left
    rcases mem_cons.mp hf with rfl | hf' <;> rcases mem_cons.mp hg with rfl | hg'
    · rfl
    · exact absurd hgk (apart (hd g hg') hfk)
    · exact absurd hfk (apart (hd f hf') hgk)
    · exact hi h.tail hf' hg'

theorem covered_iff {fs : List (Fragment K)} (h : Fragmented fs) (hf : f ∈ fs) (hk : f.Contains k) :
    Covered fs k s ↔ s ∈ f.seqs :=
  ⟨fun ⟨_, hg, hgk, hs⟩ => h.eq_of_contains hf hg hk hgk ▸ hs, fun hs => ⟨f, hf, hk, hs⟩⟩

theorem coveringSeqIn_newest {fs : List (Fragment K)} (h : Fragmented fs) :
    Newest (Covered fs k) r (coveringSeqIn fs k r) := by
  unfold coveringSeqIn
  rw [getElem?_partitionPoint]
  induction fs
  case nil => simp [Newest]
  case cons f fs hi =>
    by_cases hk : f.stop ≤ k
    case pos =>
      -- The search goes past a fragment that ends at or below the key.
      rw [dropWhile_cons_of_pos (by simpa using hk)]
      refine Newest.congr_of_le (hi h.tail) fun s _ => ?_
      simp [Fragment.Contains, not_lt.mpr hk]
    rw [dropWhile_cons_of_neg (by simpa using hk)]
    have hk := not_le.mp hk
    simp only [head?_cons]
    split
    case isTrue hs => simp [Newest, h.not_covered_tail hk, Fragment.Contains, not_le.mpr hs]
    case isFalse hs =>
      refine Newest.congr_of_le (Fragment.visibleSeq_newest (h.wf f (by simp)).desc) fun s _ => ?_
      simp [h.not_covered_tail hk, Fragment.Contains, not_lt.mp hs, hk]

end Fragmented

theorem clipLow_le_iff {lower : Option K} : clipLow lower a ≤ k ↔ a ≤ k ∧ ∀ l ∈ lower, l ≤ k := by
  cases lower <;> simp [clipLow]
  case some l => split <;> constructor <;> intro h <;> grind

theorem lt_clipHigh_iff {upper : Option K} : k < clipHigh upper b ↔ k < b ∧ ∀ u ∈ upper, k < u := by
  cases upper <;> simp [clipHigh]
  case some u => split <;> constructor <;> intro h <;> grind

def InInterval (lower upper : Option K) (k : K) : Prop :=
  (∀ l ∈ lower, l ≤ k) ∧ ∀ u ∈ upper, k < u

@[simp]
theorem inInterval_none : InInterval none none (k : K) := by
  simp [InInterval]

theorem Fragment.mem_clip {f g : Fragment K} :
    g ∈ f.clip lower upper ↔ clipLow lower f.start < clipHigh upper f.stop ∧
      g = ⟨clipLow lower f.start, clipHigh upper f.stop, f.seqs⟩ := by
  simp only [clip, Option.mem_def]
  split <;> simp_all [eq_comm]

theorem covered_clipFragments {fs : List (Fragment K)} :
    Covered (clipFragments fs lower upper) k s ↔ Covered fs k s ∧ InInterval lower upper k := by
  have key (f : Fragment K) : clipLow lower f.start ≤ k ∧ k < clipHigh upper f.stop ↔
      f.Contains k ∧ InInterval lower upper k := by
    simp only [clipLow_le_iff, lt_clipHigh_iff, Fragment.Contains, InInterval]
    tauto
  constructor
  case mp =>
    rintro ⟨g, hg, hc, hs⟩
    obtain ⟨f, hf, hg⟩ := mem_filterMap.mp hg
    obtain ⟨_, rfl⟩ := Fragment.mem_clip.mp hg
    obtain ⟨hc, hi⟩ := key f |>.mp hc
    exact ⟨⟨f, hf, hc, hs⟩, hi⟩
  case mpr =>
    rintro ⟨⟨f, hf, hc, hs⟩, hi⟩
    have hk := key f |>.mpr ⟨hc, hi⟩
    refine ⟨⟨_, _, f.seqs⟩, mem_filterMap.mpr ⟨f, hf, ?_⟩, hk, hs⟩
    exact Fragment.mem_clip.mpr ⟨hk.1.trans_lt hk.2, rfl⟩

theorem le_clipLow {lower : Option K} : a ≤ clipLow lower a := by
  cases lower <;> simp [clipLow]
  case some l => split <;> simp_all [le_of_lt]

theorem clipHigh_le {upper : Option K} : clipHigh upper b ≤ b := by
  cases upper <;> simp [clipHigh]
  case some u => split <;> simp_all [le_of_lt]

theorem clipFragments_eq_self {fs : List (Fragment K)} (hw : ∀ f ∈ fs, f.start < f.stop)
    (hu : ∀ f ∈ fs, ∀ u ∈ upper, f.stop ≤ u) : clipFragments fs none upper = fs := by
  have hclip : ∀ f ∈ fs, Fragment.clip none upper f = some f := by
    intro f hf
    have hhigh : clipHigh upper f.stop = f.stop := by
      cases upper
      case none => rfl
      case some u => exact if_neg (not_lt.mpr (hu f hf u rfl))
    simp [Fragment.clip, clipLow, hhigh, hw f hf]
  rw [clipFragments, filterMap_congr hclip, filterMap_some]

theorem Fragmented.clip {fs : List (Fragment K)} (h : Fragmented fs) :
    Fragmented (clipFragments fs lower upper) := by
  constructor
  case wf =>
    intro g hg
    obtain ⟨f, hf, hg⟩ := mem_filterMap.mp hg
    obtain ⟨hlt, rfl⟩ := Fragment.mem_clip.mp hg
    exact ⟨hlt, (h.wf f hf).seqs, (h.wf f hf).desc⟩
  case sorted =>
    refine List.Pairwise.filterMap _ ?_ h.sorted
    intro f g hfg f' hf' g' hg'
    obtain ⟨_, rfl⟩ := Fragment.mem_clip.mp hf'
    obtain ⟨_, rfl⟩ := Fragment.mem_clip.mp hg'
    exact clipHigh_le.trans (hfg.trans le_clipLow)

end OndaDb

import Mathlib.Data.List.Dedup
import Mathlib.Data.List.Sort

-- Sorting by a total preorder keeps the order of what it does not tell apart.
namespace List

variable {α : Type} {r : α → α → Prop} [DecidableRel r] {l xs ys : List α}

theorem insertionSort_append :
    (xs ++ ys).insertionSort r = xs.foldr (orderedInsert r) (ys.insertionSort r) := by
  simp [insertionSort, foldr_append]

theorem insertionSort_append_cons (hx : ∀ b ∈ xs, ¬r b a) (hy : ∀ b ∈ ys, r a b) :
    (xs ++ a :: ys).insertionSort r = a :: (xs ++ ys).insertionSort r := by
  induction xs
  case nil => exact insertionSort_cons_of_forall_rel r hy
  case cons b xs hi =>
    rw [cons_append, insertionSort_cons, hi fun c hc => hx c (mem_cons_of_mem _ hc),
      orderedInsert_of_not_le r _ (hx b (mem_cons_self ..)), cons_append, insertionSort_cons]

theorem Nodup.not_sublist_swap (hn : l.Nodup) (h : [a, b] <+ l) : ¬[b, a] <+ l := by
  intro h'
  induction l
  case nil => cases h
  case cons c l hi =>
    obtain ⟨hc, hn⟩ := nodup_cons.mp hn
    cases h
    case cons h =>
      cases h'
      case cons h' => exact hi hn h h'
      case cons_cons h' => exact hc (h.subset (by simp))
    case cons_cons h =>
      cases h'
      case cons h' => exact hc (h'.subset (by simp))
      case cons_cons h' => exact hc (h.subset (by simp))

theorem insertionSort_filter_append (h : l.Pairwise fun a b => r a b ∧ (r b a → p a → p b)) :
    (l.filter (!p ·) ++ l.filter p).insertionSort r = l := by
  induction l
  case nil => rfl
  case cons a l hi =>
    obtain ⟨ha, hl⟩ := pairwise_cons.mp h
    have hle : ∀ b ∈ l.filter (!p ·) ++ l.filter p, r a b := by
      intro b hb
      rw [mem_append, mem_filter, mem_filter] at hb
      exact (ha b (hb.elim And.left And.left)).1
    cases hp : p a
    case false =>
      rw [filter_cons_of_pos (by simp [hp]), filter_cons_of_neg (by simp [hp]), cons_append,
        insertionSort_cons_of_forall_rel r hle, hi hl]
    case true =>
      rw [filter_cons_of_neg (by simp [hp]), filter_cons_of_pos hp, insertionSort_append_cons, hi hl]
      · intro b hb hba
        obtain ⟨hb, hpb⟩ := mem_filter.mp hb
        simp [(ha b hb).2 hba hp] at hpb
      · exact fun b hb => hle b (mem_append_right _ hb)

variable [IsTrans α r]

theorem filter_orderedInsert (hl : l.Pairwise r) :
    (l.orderedInsert r a).filter p =
      if p a then (l.filter p).orderedInsert r a else l.filter p := by
  induction l
  case nil => cases hp : p a <;> simp [hp]
  case cons b l hi =>
    obtain ⟨hb, hl⟩ := pairwise_cons.mp hl
    by_cases h : r a b
    case pos =>
      have hle : ∀ c ∈ (b :: l).filter p, r a c := by
        intro c hc
        rcases mem_cons.mp (mem_of_mem_filter hc) with rfl | hc
        · exact h
        · exact IsTrans.trans a b c h (hb c hc)
      rw [orderedInsert_cons_of_le r l h, filter_cons]
      split
      case isFalse => rfl
      cases hf : (b :: l).filter p
      case nil => rfl
      case cons c m =>
        rw [hf] at hle
        rw [orderedInsert_cons_of_le r m (hle c (mem_cons_self ..))]
    rw [orderedInsert_of_not_le r l h, filter_cons, hi hl, filter_cons]
    by_cases hpa : p a <;> by_cases hpb : p b <;> simp [hpa, hpb, h]

variable [Std.Total r]

theorem orderedInsert_comm (h : ¬r a b) :
    (l.orderedInsert r a).orderedInsert r b = (l.orderedInsert r b).orderedInsert r a := by
  have hba : r b a := (Std.Total.total a b).resolve_left h
  induction l
  case nil => simp [h, hba]
  case cons c l hi =>
    by_cases hac : r a c
    case pos => simp [hac, h, hba, IsTrans.trans b a c hba hac]
    by_cases hbc : r b c
    case pos => simp [hac, hbc, h]
    case neg => simp [hac, hbc, hi]

theorem foldr_orderedInsert :
    (l.orderedInsert r a).foldr (orderedInsert r) acc =
      (l.foldr (orderedInsert r) acc).orderedInsert r a := by
  induction l
  case nil => rfl
  case cons b l hi =>
    by_cases h : r a b
    case pos => simp [h]
    case neg => simp [h, hi, orderedInsert_comm h]

theorem insertionSort_insertionSort_append :
    (xs.insertionSort r ++ ys).insertionSort r = (xs ++ ys).insertionSort r := by
  rw [insertionSort_append, insertionSort_append]
  induction xs
  case nil => rfl
  case cons a xs hi => rw [insertionSort_cons, foldr_orderedInsert, hi, foldr_cons]

theorem filter_insertionSort :
    (l.insertionSort r).filter p = (l.filter p).insertionSort r := by
  induction l
  case nil => rfl
  case cons a l hi =>
    rw [insertionSort_cons, filter_orderedInsert (pairwise_insertionSort r l), hi, filter_cons]
    split <;> rfl

-- Taking some elements out of a list without repetitions, appending them and sorting gives the list
-- back if and only if it was sorted and, among those the order does not tell apart, they were last.
theorem insertionSort_filter_append_iff (hn : l.Nodup) :
    (l.filter (!p ·) ++ l.filter p).insertionSort r = l ↔
      l.Pairwise fun a b => r a b ∧ (r b a → p a → p b) := by
  refine ⟨fun h => ?_, insertionSort_filter_append⟩
  have hs : l.Pairwise r := h ▸ pairwise_insertionSort r _
  rw [pairwise_iff_forall_sublist]
  intro a b hab
  refine ⟨pairwise_iff_forall_sublist.mp hs hab, fun hba hpa => ?_⟩
  by_contra hpb
  have hma : a ∈ l := hab.subset (by simp)
  have hmb : b ∈ l := hab.subset (by simp)
  have hsub : [b, a] <+ l.filter (!p ·) ++ l.filter p :=
    Sublist.append (singleton_sublist.mpr (mem_filter.mpr ⟨hmb, by simpa using hpb⟩))
      (singleton_sublist.mpr (mem_filter.mpr ⟨hma, hpa⟩))
  exact hn.not_sublist_swap hab (h ▸ pair_sublist_insertionSort hba hsub)

theorem pairwise_lt_dedup_insertionSort [LinearOrder α] (l : List α) :
    (l.insertionSort (· ≤ ·)).dedup.Pairwise (· < ·) := by
  have hs := (l.pairwise_insertionSort (· ≤ ·)).sublist (dedup_sublist _)
  exact hs.and (nodup_dedup _) |>.imp fun h => lt_of_le_of_ne h.1 h.2

end List

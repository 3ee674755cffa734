import Mathlib.Tactic

-- Adjacent elements of strictly increasing lists.
namespace List

variable {α : Type} [LinearOrder α] {l : List α}

theorem window_gap (hl : l.Pairwise (· < ·)) (hw : [a, b] <:+: l) (hx : x ∈ l) : x ≤ a ∨ b ≤ x := by
  obtain ⟨p, q, rfl⟩ := hw
  simp only [append_assoc, cons_append, nil_append, pairwise_append, pairwise_cons, mem_append,
    mem_cons] at hl hx
  obtain ⟨_, ⟨_, hb, _⟩, hp⟩ := hl
  rcases hx with hx | rfl | rfl | hx
  · exact .inl (hp x hx a (.inl rfl)).le
  · exact .inl le_rfl
  · exact .inr le_rfl
  · exact .inr (hb x hx).le

theorem window_lt (hl : l.Pairwise (· < ·)) (hw : [a, b] <:+: l) : a < b := by
  have := hl.sublist hw.sublist
  simp_all

theorem exists_window (hl : l.Pairwise (· < ·)) (hx : x ∈ l) (hxk : x ≤ k) (hy : y ∈ l)
    (hky : k < y) : ∃ a b, [a, b] <:+: l ∧ a ≤ k ∧ k < b := by
  induction l generalizing x
  case nil => simp at hx
  case cons c l hi =>
    obtain ⟨hc, hl⟩ := pairwise_cons.mp hl
    match l with
    | [] =>
      simp only [mem_cons, not_mem_nil, or_false] at hx hy
      exact absurd (hx ▸ hxk) (not_le.mpr (hy ▸ hky))
    | d :: l =>
      have hcd := hc d (by simp)
      by_cases hd : d ≤ k
      case neg =>
        have hck : c ≤ k := by
          rcases mem_cons.mp hx with rfl | hx
          · exact hxk
          · exact (hc x hx).le.trans hxk
        exact ⟨c, d, ⟨[], l, rfl⟩, hck, not_le.mp hd⟩
      have hy : y ∈ d :: l := by
        rcases mem_cons.mp hy with rfl | hy
        · exact absurd (hcd.trans_le hd) hky.not_gt
        · exact hy
      obtain ⟨a, b, hw, hab⟩ := hi hl (mem_cons_self ..) hd hy
      exact ⟨a, b, hw.trans (suffix_cons ..).isInfix, hab⟩

end List

import Mathlib.Data.List.Nodup
import Mathlib.Algebra.BigOperators.Group.List.Basic
import Mathlib.Algebra.GroupWithZero.Nat

-- Lists that hold at most one element for each key.
namespace Keyed

open List

variable {α κ : Type} [DecidableEq κ] (key : α → κ) {l : List α} {k : κ} {a : α}

def find (k : κ) (l : List α) : Option α :=
  l.find? (key · = k)

def drop (k : κ) (l : List α) : List α :=
  l.filter (key · ≠ k)

variable {key}

theorem of_find (h : find key k l = some a) : a ∈ l ∧ key a = k :=
  ⟨mem_of_find?_eq_some h, by simpa using find?_some h⟩

theorem find_eq_none : find key k l = none ↔ ∀ a ∈ l, key a ≠ k := by
  simp [find]

theorem perm_of_mem (hn : (l.map key).Nodup) (h : a ∈ l) : l.Perm (a :: drop key (key a) l) := by
  induction l
  case nil => cases h
  case cons b l ih =>
    rw [map_cons, nodup_cons] at hn
    rcases mem_cons.mp h with rfl | h
    case inl =>
      have hd : drop key (key a) l = l := by
        refine filter_eq_self.mpr fun c hc => ?_
        simp only [ne_eq, decide_not, Bool.not_eq_true', decide_eq_false_iff_not]
        exact fun heq => hn.1 (heq ▸ mem_map_of_mem hc)
      have hd' : drop key (key a) (a :: l) = l := by
        rw [drop, filter_cons_of_neg (by simp)]
        exact hd
      rw [hd']
    case inr =>
      have hne : key b ≠ key a := fun heq => hn.1 (heq ▸ mem_map_of_mem h)
      have hd : drop key (key a) (b :: l) = b :: drop key (key a) l := by simp [drop, hne]
      rw [hd]
      exact ((ih hn.2 h).cons b).trans (.swap a b _)

theorem sum_drop (w : α → Nat) (hn : (l.map key).Nodup) (h : find key k l = some a) :
    (l.map w).sum = w a + ((drop key k l).map w).sum := by
  obtain ⟨hm, rfl⟩ := of_find h
  rw [((perm_of_mem hn hm).map w).sum_eq, map_cons, sum_cons]

end Keyed

import Mathlib.Data.List.Basic

-- A list in pieces of at most `n` elements.
namespace List

variable {α : Type} {n : Nat} {l : List α}

def chunks (n : Nat) (l : List α) : List (List α) :=
  if n = 0 ∨ l = [] then [] else l.take n :: chunks n (l.drop n)
termination_by l.length
decreasing_by
  rename_i h
  have := List.length_pos_of_ne_nil (not_or.mp h).2
  simp only [List.length_drop]
  omega

@[simp] theorem chunks_nil : chunks n ([] : List α) = [] := by
  rw [chunks, if_pos (.inr rfl)]

theorem chunks_of_ne_nil (hn : 0 < n) (hl : l ≠ []) : chunks n l = l.take n :: chunks n (l.drop n) := by
  rw [chunks, if_neg (not_or.mpr ⟨Nat.ne_of_gt hn, hl⟩)]

@[elab_as_elim]
theorem chunks_induction {motive : List α → Prop} (hn : 0 < n) (nil : motive [])
    (piece : ∀ l, l ≠ [] → motive (l.drop n) → motive l) (l : List α) : motive l := by
  induction h : l.length using Nat.strongRecOn generalizing l
  case ind m ih =>
    by_cases hl : l = []
    case pos => exact hl ▸ nil
    have := List.length_pos_of_ne_nil hl
    exact piece l hl (ih _ (by simp only [List.length_drop]; omega) _ rfl)

theorem chunks_of_length_le (hn : 0 < n) (hl : l ≠ []) (h : l.length ≤ n) : chunks n l = [l] := by
  rw [chunks_of_ne_nil hn hl, List.take_of_length_le h, List.drop_of_length_le h, chunks_nil]

theorem flatten_chunks (hn : 0 < n) (l : List α) : (chunks n l).flatten = l := by
  induction l using chunks_induction hn
  case nil => simp
  case piece l hl ih => rw [chunks_of_ne_nil hn hl, List.flatten_cons, ih, List.take_append_drop]

theorem length_chunks_le (hn : 0 < n) (l : List α) : n * (chunks n l).length < l.length + n := by
  induction l using chunks_induction hn
  case nil => simpa using hn
  case piece l hl ih =>
    have := List.length_pos_of_ne_nil hl
    rw [chunks_of_ne_nil hn hl, List.length_cons]
    rw [List.length_drop] at ih
    by_cases h : n ≤ l.length
    case pos => rw [Nat.mul_succ]; omega
    rw [List.drop_of_length_le (by omega), chunks_nil]
    simp only [List.length_nil, Nat.zero_add, Nat.mul_one]
    omega

theorem length_chunks_lt (hn : 2 ≤ n) (h : n < l.length) : (chunks n l).length < l.length := by
  have hle := length_chunks_le (by omega : 0 < n) l
  by_contra hc
  have := Nat.mul_le_mul_left n (Nat.le_of_not_lt hc)
  have := Nat.mul_le_mul_right l.length hn
  omega

end List

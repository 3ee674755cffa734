import Mathlib.Data.List.Basic

-- The element with the highest number, the first of them if there are several.
def newest (seq : α → Nat) : List α → Option α
  | [] => none
  | a :: as => some ((newest seq as).elim a fun b => if seq b ≤ seq a then a else b)

variable {α : Type} {seq : α → Nat} {l l₁ l₂ : List α} {a : α}

theorem newest_cons : newest seq (a :: l) = some ((newest seq l).elim a fun b => if seq b ≤ seq a then a else b) :=
  rfl

theorem mem_of_newest (h : newest seq l = some a) : a ∈ l := by
  induction l generalizing a
  case nil => cases h
  case cons b l ih =>
    rw [newest_cons, Option.some.injEq] at h
    cases hl : newest seq l
    case none =>
      rw [hl, Option.elim_none] at h
      exact h ▸ List.mem_cons_self ..
    case some c =>
      rw [hl, Option.elim_some] at h
      split at h
      case isTrue => exact h ▸ List.mem_cons_self ..
      case isFalse => exact List.mem_cons_of_mem _ (ih (hl.trans (congrArg some h)))

theorem newest_append (h : ∀ a ∈ l₁, ∀ b ∈ l₂, seq b < seq a) : newest seq (l₁ ++ l₂) = (newest seq l₁).or (newest seq l₂) := by
  induction l₁
  case nil => rfl
  case cons a l₁ ih =>
    rw [List.cons_append, newest_cons, ih fun b hb => h b (List.mem_cons_of_mem _ hb), newest_cons, Option.some_or,
      Option.some.injEq]
    cases newest seq l₁
    case some b => rfl
    case none =>
      rw [Option.none_or, Option.elim_none]
      cases hl : newest seq l₂
      case none => rfl
      case some b => exact if_pos (Nat.le_of_lt (h a (List.mem_cons_self ..) b (mem_of_newest hl)))

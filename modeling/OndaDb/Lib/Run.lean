import Mathlib.Logic.Relation

-- Runs of a system: finitely many steps from an initial state.
def Reachable (init : σ) (Step : σ → σ → Prop) (s : σ) : Prop :=
  Relation.ReflTransGen Step init s

namespace Reachable

variable {init : σ} {Step : σ → σ → Prop} {s : σ}

theorem start : Reachable init Step init :=
  .refl

theorem next (h : Reachable init Step s) (hs : Step s s') : Reachable init Step s' :=
  h.tail hs

theorem invariant {I : σ → Prop} (h : Reachable init Step s) (hi : I init)
    (hs : ∀ s s', Step s s' → I s → I s') : I s := by
  induction h
  case refl => exact hi
  case tail _ _ _ st ih => exact hs _ _ st ih

end Reachable

def Allowed (exec : σ → ε → σ) (P : σ → ε → Prop) (s : σ) : List ε → Prop
  | [] => True
  | e :: es => P s e ∧ Allowed exec P (exec s e) es

instance Allowed.decidable {exec : σ → ε → σ} {P : σ → ε → Prop} [∀ s e, Decidable (P s e)] :
    (s : σ) → (es : List ε) → Decidable (Allowed exec P s es)
  | _, [] => .isTrue trivial
  | s, e :: es => @instDecidableAnd _ _ _ (Allowed.decidable (exec s e) es)

theorem Allowed.of_append {P : σ → ε → Prop} (h : Allowed exec P s (es ++ es')) :
    Allowed exec P s es ∧ Allowed exec P (es.foldl exec s) es' := by
  induction es generalizing s
  case nil => exact ⟨trivial, h⟩
  case cons e es ih => exact ⟨⟨h.1, (ih h.2).1⟩, (ih h.2).2⟩

theorem Reachable.foldl (h : Reachable init Step s) (hs : ∀ s e, P s e → Step s (exec s e))
    (ha : Allowed exec P s es) : Reachable init Step (es.foldl exec s) := by
  induction es generalizing s
  case nil => exact h
  case cons e _ ih => exact ih (h.next (hs s e ha.left)) ha.right

import Mathlib.Data.List.Infix

-- Absolute paths without symbolic links, as the names on the way down from the root.
abbrev DirPath := List String

namespace DirPath

open List

variable {p q r : DirPath}

def step (p : DirPath) (c : String) : DirPath :=
  if c = "" ∨ c = "." then p
  else if c = ".." then p.dropLast
  else p ++ [c]

def resolve (p : DirPath) (components : List String) : DirPath :=
  components.foldl step p

def components (s : String) : List String :=
  (s.toList.splitOn '/').map .ofList

def Apart (p q : DirPath) : Prop :=
  ¬p <+: q ∧ ¬q <+: p

instance : Decidable (Apart p q) := by
  unfold Apart
  infer_instance

theorem Apart.symm (h : p.Apart q) : q.Apart p :=
  And.symm h

theorem Apart.ne (h : p.Apart q) : p ≠ q := by
  rintro rfl
  exact h.1 (prefix_refl p)

theorem Apart.not_below (h : p.Apart q) (hq : q <+: r) : ¬p <+: r := by
  intro hp
  rcases prefix_or_prefix_of_prefix hp hq with hpq | hqp
  · exact h.1 hpq
  · exact h.2 hqp

theorem apart_of_child (c d : String) (h : c ≠ d) : Apart (p ++ [c]) (p ++ [d]) := by
  have hne (c d : String) (h : c ≠ d) : ¬p ++ [c] <+: p ++ [d] := by
    rw [prefix_append_right_inj, prefix_cons_iff]
    simp [h]
  exact ⟨hne c d h, hne d c h.symm⟩

theorem components_eq (s : String) (h : '/' ∉ s.toList) : components s = [s] := by
  rw [components, splitOn_eq_singleton h, map_singleton, String.ofList_toList]

end DirPath

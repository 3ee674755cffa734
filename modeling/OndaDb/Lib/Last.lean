import Mathlib.Data.List.Basic

def lastBelow (p : Nat → Bool) : Nat → Option Nat
  | 0 => none
  | n + 1 => if p n then some n else lastBelow p n

theorem find?_reverse_range (p : Nat → Bool) (n : Nat) : (List.range n).reverse.find? p = lastBelow p n := by
  induction n
  case zero => rfl
  case succ n ih =>
    rw [List.range_succ, List.reverse_append, List.reverse_singleton, List.singleton_append, List.find?_cons, ih,
      lastBelow]
    cases p n <;> rfl

theorem lastBelow_congr (h : ∀ i < n, p i = q i) : lastBelow p n = lastBelow q n := by
  induction n
  case zero => rfl
  case succ n ih =>
    rw [lastBelow, lastBelow, h n (Nat.lt_succ_self n), ih fun i hi => h i (Nat.lt_succ_of_lt hi)]

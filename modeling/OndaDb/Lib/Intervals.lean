import Mathlib.Tactic

-- Lists of closed intervals, each with a lower and an upper end.
namespace Intervals

variable {α K : Type} [LinearOrder K]

def Disjoint (lo hi : α → K) (l : List α) : Prop :=
  l.Pairwise fun a b => hi a < lo b

variable {lo hi : α → K} {l : List α}

end Intervals

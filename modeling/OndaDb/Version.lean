import OndaDb.Lib.KMerge

namespace OndaDb

inductive Kind
  | put
  | delete
  | singleDelete
  | merge
  deriving DecidableEq, Repr

namespace Kind

def tombstone : Kind → Bool
  | delete | singleDelete => true
  | put | merge => false

end Kind

-- One version of a user key. A `ttl` of 0 never expires.
structure Version (K V : Type) where
  key : K
  seq : Nat
  ttl : Int
  kind : Kind
  value : V
  deriving DecidableEq, Repr

namespace Version

def tombstone (v : Version K V) : Bool :=
  v.kind.tombstone

def isMerge (v : Version K V) : Bool :=
  v.kind = .merge

def expired (v : Version K V) (now : Int) : Bool :=
  v.ttl ≠ 0 ∧ v.ttl ≤ now

-- The internal order: user keys ascending, the versions of one key newest first.
def Before [LinearOrder K] (v w : Version K V) : Prop :=
  v.key < w.key ∨ v.key = w.key ∧ w.seq < v.seq

instance [LinearOrder K] : DecidableRel (Before (K := K) (V := V)) :=
  fun v w => inferInstanceAs (Decidable (v.key < w.key ∨ v.key = w.key ∧ w.seq < v.seq))

section

variable [LinearOrder K] {u v w : Version K V}

theorem not_before : ¬v.Before w ↔ w.key < v.key ∨ w.key = v.key ∧ v.seq ≤ w.seq := by
  simp only [Before, not_or, not_lt, not_and]
  constructor
  · rintro ⟨h₁, h₂⟩
    exact h₁.lt_or_eq.imp_right fun h => ⟨h, h₂ h.symm⟩
  · rintro (h | ⟨h₁, h₂⟩)
    · exact ⟨h.le, fun he => absurd he h.ne'⟩
    · exact ⟨h₁.le, fun _ => h₂⟩

theorem Before.trans (h₁ : u.Before v) (h₂ : v.Before w) : u.Before w := by
  rcases h₁ with h₁ | ⟨h₁, h₁'⟩ <;> rcases h₂ with h₂ | ⟨h₂, h₂'⟩
  · exact .inl (h₁.trans h₂)
  · exact .inl (h₂ ▸ h₁)
  · exact .inl (h₁ ▸ h₂)
  · exact .inr ⟨h₁.trans h₂, h₂'.trans h₁'⟩

theorem before_strictWeak : StrictWeak (Before (K := K) (V := V)) where
  asymm v w h := by
    rw [not_before]
    exact h.imp_right fun h => ⟨h.1, h.2.le⟩
  negTrans u v w h₁ h₂ := by
    rw [not_before] at *
    rcases h₁ with h₁ | ⟨h₁, h₁'⟩ <;> rcases h₂ with h₂ | ⟨h₂, h₂'⟩
    · exact .inl (h₂.trans h₁)
    · exact .inl (h₂ ▸ h₁)
    · exact .inl (h₁ ▸ h₂)
    · exact .inr ⟨h₂.trans h₁, h₁'.trans h₂'⟩

end

end Version

-- A merge operator folds operands, oldest first, onto the value below them.
structure MergeOperator (K V : Type) where
  fullMerge : K → Option V → List V → V

-- The contract of a merge operator: folding in two steps is folding in one.
def MergeOperator.Associative (op : MergeOperator K V) : Prop :=
  ∀ k e xs ys, xs ≠ [] → ys ≠ [] →
    op.fullMerge k e (xs ++ ys) = op.fullMerge k (some (op.fullMerge k e xs)) ys

end OndaDb

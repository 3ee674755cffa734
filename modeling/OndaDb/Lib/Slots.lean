import OndaDb.Lib.Map

-- A list of slots, some of which are filled through a map from keys to slots.
structure Slots (κ β : Type) where
  slotOf : Map κ Nat
  slots : List β

namespace Slots

open List

variable {κ β γ : Type} [DecidableEq κ] {s : Slots κ β} {b new : β} {f : β → β}

def empty : Slots κ β where
  slotOf := ∅
  slots := []

def push (s : Slots κ β) (b : β) : Slots κ β :=
  { s with slots := s.slots ++ [b] }

def upsert (s : Slots κ β) (k : κ) (new : β) (f : β → β) : Slots κ β :=
  match s.slotOf.lookup k with
  | none => { slotOf := s.slotOf.insert k s.slots.length, slots := s.slots ++ [new] }
  | some i => { s with slots := s.slots.modify i f }

def get? (s : Slots κ β) (k : κ) : Option β :=
  (s.slotOf.lookup k).bind (s.slots[·]?)

def map (g : β → γ) (s : Slots κ β) : Slots κ γ :=
  { s with slots := s.slots.map g }

omit [DecidableEq κ] in
theorem map_push : (s.push b).map g = (s.map g).push (g b) := by
  simp [map, push]

theorem map_upsert (h : ∀ b, g (f b) = f' (g b)) :
    (s.upsert k new f).map g = (s.map g).upsert k (g new) f' := by
  simp only [upsert, map]
  split
  · simp
  · congr 1
    refine ext_getElem? fun j => ?_
    simp only [getElem?_map, getElem?_modify]
    cases s.slots[j]?
    case none => rfl
    case some b =>
      simp only [Option.map_eq_map, Option.map_some]
      split <;> simp [h]

structure WellFormed (s : Slots κ β) : Prop where
  bound : ∀ k i, s.slotOf.lookup k = some i → i < s.slots.length
  inj : ∀ k k' i, s.slotOf.lookup k = some i → s.slotOf.lookup k' = some i → k = k'

theorem wellFormed_empty : (empty : Slots κ β).WellFormed where
  bound := by simp [empty]
  inj := by simp [empty]

theorem WellFormed.push (h : s.WellFormed) : (s.push b).WellFormed where
  bound k i hk := by
    have := h.bound k i hk
    simp only [Slots.push, length_append]
    omega
  __ := h

theorem WellFormed.upsert (h : s.WellFormed) : (s.upsert k new f).WellFormed := by
  rw [Slots.upsert]
  split
  case h_1 hk =>
    refine ⟨fun k' i hi => ?_, fun k₁ k₂ i h₁ h₂ => ?_⟩
    · rw [Map.lookup_insert_eq] at hi
      simp only [length_append, length_singleton]
      split at hi
      · cases hi
        omega
      · exact Nat.lt_succ_of_lt (h.bound k' i hi)
    · rw [Map.lookup_insert_eq] at h₁ h₂
      split at h₁ <;> split at h₂
      · simp_all
      · cases h₁
        exact absurd (h.bound _ _ h₂) (Nat.lt_irrefl _)
      · cases h₂
        exact absurd (h.bound _ _ h₁) (Nat.lt_irrefl _)
      · exact h.inj _ _ _ h₁ h₂
  case h_2 => exact ⟨fun k' i hi => by simpa using h.bound k' i hi, h.inj⟩

theorem get?_push (h : s.WellFormed) : (s.push b).get? k = s.get? k := by
  refine Option.bind_congr fun i hi => ?_
  exact getElem?_append_left (h.bound k i hi)

theorem get?_upsert_self (h : s.WellFormed) :
    (s.upsert k new f).get? k = some ((s.get? k).elim new f) := by
  rw [upsert]
  split
  case h_1 hk => simp [get?, hk]
  case h_2 i hk =>
    have := h.bound k i hk
    simp [get?, hk, this]

theorem get?_upsert_ne (h : s.WellFormed) (hne : k' ≠ k) :
    (s.upsert k new f).get? k' = s.get? k' := by
  rw [upsert]
  split
  case h_1 hk =>
    rw [get?, Map.lookup_insert_eq, if_neg hne]
    refine Option.bind_congr fun i hi => ?_
    exact getElem?_append_left (h.bound k' i hi)
  case h_2 i hk =>
    refine Option.bind_congr fun j hj => ?_
    have hij : i ≠ j := fun he => hne (h.inj _ _ _ hj (he ▸ hk))
    simp [hij]

section owned

variable {p : β → Bool}

def Owns (s : Slots κ β) (k : κ) (p : β → Bool) : Prop :=
  ∀ i b, s.slots[i]? = some b → p b → s.slotOf.lookup k = some i

theorem filter_eq_getElem? {l : List β} {i : Nat} (h : ∀ j b, l[j]? = some b → p b → j = i) :
    l.filter p = (l[i]?.filter p).toList := by
  induction l generalizing i
  case nil => rfl
  case cons a l hi =>
    cases i
    case zero =>
      have hl : l.filter p = [] := filter_eq_nil_iff.mpr fun b hb hp => by
        obtain ⟨j, hj⟩ := mem_iff_getElem?.mp hb
        exact absurd (h (j + 1) b hj hp) (by simp)
      cases hp : p a <;> simp [hp, hl, Option.filter]
    case succ i =>
      have ha : p a = false := by
        by_contra hp
        exact absurd (h 0 a rfl (by simpa using hp)) (by simp)
      rw [filter_cons_of_neg (by simp [ha]), getElem?_cons_succ]
      exact hi fun j b hj hp => Nat.succ_injective (h (j + 1) b hj hp)

theorem Owns.filter (h : s.Owns k p) : s.slots.filter p = ((s.get? k).filter p).toList := by
  cases hk : s.slotOf.lookup k
  case none =>
    have hl : s.slots.filter p = [] := filter_eq_nil_iff.mpr fun b hb hp => by
      obtain ⟨i, hi⟩ := mem_iff_getElem?.mp hb
      exact absurd (h i b hi hp) (by simp [hk])
    simp [get?, hk, hl]
  case some i =>
    simp only [get?, hk, Option.bind_some]
    exact filter_eq_getElem? fun j b hj hp => Option.some.inj ((h j b hj hp).symm.trans hk)

theorem owns_empty : (empty : Slots κ β).Owns k p := by
  simp [Owns, empty]

theorem getElem?_append_singleton (h : (l ++ [b])[i]? = some c) :
    l[i]? = some c ∨ i = l.length ∧ c = b := by
  by_cases hlt : i < l.length
  · exact .inl (by rwa [getElem?_append_left hlt] at h)
  · rw [getElem?_append_right (by omega), getElem?_singleton] at h
    split at h
    · cases h
      exact .inr ⟨by omega, rfl⟩
    · cases h

theorem Owns.push (h : s.Owns k p) (hb : ¬p b) : (s.push b).Owns k p := by
  intro i c hi hp
  rcases getElem?_append_singleton hi with hi | ⟨_, rfl⟩
  · exact h i c hi hp
  · exact absurd hp hb

theorem Owns.upsert (h : s.Owns k p) (hs : s.WellFormed) (hnew : k' ≠ k → ¬p new)
    (hf : k' ≠ k → ∀ b, ¬p b → ¬p (f b)) : (s.upsert k' new f).Owns k p := by
  intro i c hi hp
  rw [Slots.upsert] at hi ⊢
  split at hi
  case h_1 hk =>
    rw [Map.lookup_insert_eq]
    rcases getElem?_append_singleton hi with hi | ⟨rfl, rfl⟩
    · have hi := h i c hi hp
      rwa [if_neg fun he => absurd (he ▸ hi) (by simp [hk])]
    · rw [if_pos (Decidable.not_not.mp fun hne => hnew (Ne.symm hne) hp)]
  case h_2 j hk =>
    rw [getElem?_modify] at hi
    obtain ⟨b, hb, rfl⟩ := Option.map_eq_some_iff.mp hi
    split at hp
    case isFalse => exact h i b hb hp
    case isTrue hij =>
      subst hij
      by_cases hne : k' = k
      · exact hne ▸ hk
      · -- The slot belongs to another key, so that it did not satisfy `p` before.
        exact absurd hp (hf hne b fun hpb => hne (hs.inj _ _ _ hk (h j b hb hpb)))

end owned

end Slots

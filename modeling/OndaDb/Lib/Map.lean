import Mathlib.Data.List.AList

-- Finite maps, as lists of entries with distinct keys.
abbrev Map (α β : Type) := AList fun _ : α => β

namespace Map

open List

variable {α β : Type} [DecidableEq α] {m : Map α β}

def retain (p : α → β → Bool) (m : Map α β) : Map α β where
  entries := m.entries.filter fun e => p e.1 e.2
  nodupKeys := m.nodupKeys.sublist List.filter_sublist

def mapValues (g : β → β) (m : Map α β) : Map α β where
  entries := m.entries.map fun e => ⟨e.1, g e.2⟩
  nodupKeys := by
    rw [List.NodupKeys, List.keys, List.map_map]
    exact m.nodupKeys

def values (m : Map α β) : List β :=
  m.entries.map (·.2)

def modify (a : α) (g : β → β) (m : Map α β) : Map α β :=
  (AList.lookup a m).elim m fun b => m.insert a (g b)

theorem lookup_insert_eq (a a' : α) (b : β) :
    AList.lookup a' (m.insert a b) = if a' = a then some b else AList.lookup a' m := by
  split
  case isTrue h => subst h; exact AList.lookup_insert m
  case isFalse h => exact AList.lookup_insert_ne h

theorem lookup_erase_eq (a a' : α) :
    AList.lookup a' (m.erase a) = if a' = a then none else AList.lookup a' m := by
  split
  case isTrue h => subst h; exact AList.lookup_erase _ m
  case isFalse h => exact AList.lookup_erase_ne h

theorem lookup_retain (p : α → β → Bool) (a : α) :
    AList.lookup a (retain p m) = (AList.lookup a m).filter (p a) := by
  refine Option.ext fun b => ?_
  have hmem {m : Map α β} : AList.lookup a m = some b ↔ ⟨a, b⟩ ∈ m.entries := AList.mem_lookup_iff
  rw [hmem, Option.filter_eq_some_iff, hmem]
  simp [retain]

theorem lookup_mapValues (g : β → β) (a : α) :
    AList.lookup a (mapValues g m) = (AList.lookup a m).map g := by
  refine Option.ext fun b => ?_
  have hmem {m : Map α β} {b} : AList.lookup a m = some b ↔ ⟨a, b⟩ ∈ m.entries := AList.mem_lookup_iff
  rw [hmem, Option.map_eq_some_iff]
  simp only [mapValues, mem_map, Sigma.mk.injEq, hmem]
  constructor
  · rintro ⟨⟨a', b'⟩, he, rfl, h⟩
    exact ⟨b', he, eq_of_heq h⟩
  · rintro ⟨b', he, rfl⟩
    exact ⟨⟨a, b'⟩, he, rfl, HEq.rfl⟩

theorem lookup_modify (a a' : α) (g : β → β) :
    AList.lookup a' (modify a g m) = if a' = a then (AList.lookup a m).map g else AList.lookup a' m := by
  rw [modify]
  cases h : AList.lookup a m
  case none =>
    split
    case isTrue ha => rw [ha]; exact h
    case isFalse => rfl
  case some b => exact lookup_insert_eq a a' (g b)

theorem lookup_foldl_insert {γ : Type} (key : γ → α) (val : γ → β) {l : List γ} (hl : (l.map key).Nodup) (a : α)
    (m : Map α β) :
    AList.lookup a (l.foldl (fun m c => m.insert (key c) (val c)) m) =
      ((l.find? (key · = a)).map val).or (AList.lookup a m) := by
  induction l generalizing m
  case nil => rfl
  case cons c l ih =>
    rw [map_cons, nodup_cons] at hl
    rw [foldl_cons, ih hl.2, lookup_insert_eq, find?_cons]
    by_cases hc : key c = a
    case pos =>
      have hnone : l.find? (key · = a) = none := by
        refine find?_eq_none.mpr fun d hd => ?_
        simp only [decide_eq_true_eq]
        rintro rfl
        exact hl.1 (hc ▸ mem_map_of_mem hd)
      simp [hnone, hc]
    case neg => simp [hc, Ne.symm hc]

end Map

import Mathlib.Data.List.Nodup
import OndaDb.RangeLock.Basic

namespace OndaDb.RangeLock

open List

variable {J K : Type} [LinearOrder K]

namespace KeyRange

variable {a b r : KeyRange K} {k : K}

theorem endsBefore_iff : a.endsBefore b = true ↔ ∃ x ∈ a.max, ∃ y ∈ b.min, x < y := by
  obtain ⟨-, max⟩ := a
  obtain ⟨min, -⟩ := b
  cases max <;> cases min <;> simp [endsBefore]

theorem overlaps_iff : a.overlaps b = true ↔
    (∀ x ∈ a.max, ∀ y ∈ b.min, y ≤ x) ∧ (∀ x ∈ b.max, ∀ y ∈ a.min, y ≤ x) := by
  have h (c d : KeyRange K) : c.endsBefore d = false ↔ ∀ x ∈ c.max, ∀ y ∈ d.min, y ≤ x := by
    rw [← Bool.not_eq_true, endsBefore_iff]
    simp only [not_exists, not_and, not_lt]
  rw [overlaps, Bool.not_eq_true', Bool.or_eq_false_iff, h, h]

theorem overlaps_of_contains (ha : a.Contains k) (hb : b.Contains k) : a.overlaps b = true := by
  apply overlaps_iff.mpr
  constructor
  case left => exact fun x hx y hy => le_trans (hb.1 y hy) (ha.2 x hx)
  case right => exact fun x hx y hy => le_trans (ha.1 y hy) (hb.2 x hx)

theorem not_inverted_iff : ¬r.Inverted ↔ ∀ x ∈ r.min, ∀ y ∈ r.max, x ≤ y := by
  simp only [Inverted, not_exists, not_and, not_lt]

theorem exists_contains [Nonempty K] (ha : ¬a.Inverted) (hb : ¬b.Inverted) (h : a.overlaps b = true) :
    ∃ k, a.Contains k ∧ b.Contains k := by
  rw [not_inverted_iff] at ha hb
  obtain ⟨hab, hba⟩ := overlaps_iff.mp h
  obtain ⟨amin, amax⟩ := a
  obtain ⟨bmin, bmax⟩ := b
  simp only [Contains] at *
  cases amin <;> cases bmin
  case some.some x y =>
    exact ⟨x ⊔ y, ⟨by simp, fun m hm => sup_le (ha x rfl m hm) (hab m hm y rfl)⟩, by simp,
      fun m hm => sup_le (hba m hm x rfl) (hb y rfl m hm)⟩
  case some.none x => exact ⟨x, ⟨by simp, ha x rfl⟩, by simp, fun m hm => hba m hm x rfl⟩
  case none.some y => exact ⟨y, ⟨by simp, fun m hm => hab m hm y rfl⟩, by simp, hb y rfl⟩
  case none.none =>
    cases amax <;> cases bmax
    case some.some x y => exact ⟨x ⊓ y, by simp, by simp⟩
    case some.none x => exact ⟨x, by simp, by simp⟩
    case none.some y => exact ⟨y, by simp, by simp⟩
    case none.none => exact ⟨Classical.arbitrary K, by simp, by simp⟩

end KeyRange

namespace State

variable {s : State J K} {job : J} {range : KeyRange K}

structure Sound (s : State J K) : Prop where
  ranges : s.held.ranges = s.guards.map fun g => (g.token, g.range)
  tokens : (s.guards.map Guard.token).Nodup
  below : ∀ g ∈ s.guards, g.token < s.held.nextToken
  apart : s.guards.Pairwise fun g g' => g.range.overlaps g'.range = false

theorem Sound.start : (start : State J K).Sound where
  ranges := rfl
  tokens := .nil
  below := by simp [State.start]
  apart := .nil

theorem conflicts_eq_false (h : s.Sound) :
    s.held.conflicts range = false ↔ ∀ g ∈ s.guards, g.range.overlaps range = false := by
  simp only [Held.conflicts, h.ranges, any_eq_false, mem_map]
  simp

theorem Sound.acquire (h : s.Sound) (hr : refused.Sound) :
    (s.acquire job range granted refused).Sound := by
  rw [State.acquire, Held.tryAcquire]
  split
  case h_1 => exact hr
  case h_2 token held hacq =>
    split at hacq
    case isTrue => cases hacq
    case isFalse hc =>
      cases hacq
      have hc := (conflicts_eq_false h).mp (Bool.eq_false_iff.mpr hc)
      constructor
      case ranges => simp [h.ranges]
      case tokens =>
        rw [map_append, nodup_append]
        refine ⟨h.tokens, by simp, ?_⟩
        simp only [mem_map, map_cons, map_nil, mem_singleton]
        rintro _ ⟨g, hg, rfl⟩ _ rfl
        exact Nat.ne_of_lt (h.below g hg)
      case below =>
        simp only [mem_append, mem_singleton]
        rintro g (hg | rfl)
        · exact Nat.lt_succ_of_lt (h.below g hg)
        · exact Nat.lt_succ_self _
      case apart =>
        rw [pairwise_append]
        refine ⟨h.apart, by simp, ?_⟩
        simp only [mem_singleton]
        rintro g hg _ rfl
        exact hc g hg

variable [DecidableEq J] {guard : Guard J K}

theorem Sound.release_ranges (h : s.Sound) (hg : guard ∈ s.guards) :
    (s.held.release guard.token).ranges = (s.guards.erase guard).map fun g => (g.token, g.range) := by
  have herase : s.guards.erase guard = s.guards.filter fun g => g.token ≠ guard.token := by
    have hnodup : s.guards.Nodup := .of_map _ h.tokens
    rw [hnodup.erase_eq_filter]
    apply filter_congr
    intro g hm
    have hiff : g = guard ↔ g.token = guard.token :=
      ⟨congrArg Guard.token, inj_on_of_nodup_map h.tokens hm hg⟩
    rw [Bool.eq_iff_iff, bne_iff_ne, ne_eq, hiff, decide_eq_true_eq]
  rw [herase, Held.release, h.ranges, filter_map]
  rfl

theorem Sound.release (h : s.Sound) (hg : guard ∈ s.guards) : (s.exec (.release guard)).Sound where
  ranges := h.release_ranges hg
  tokens := h.tokens.sublist (erase_sublist.map _)
  below := fun g hm => h.below g (mem_of_mem_erase hm)
  apart := h.apart.sublist erase_sublist

theorem Sound.step (h : s.Sound) (hs : Step s s') : s'.Sound := by
  obtain ⟨e, he, rfl⟩ := hs
  cases e
  case tryAcquire job range => exact h.acquire h
  case acquireBlocking job range => exact h.acquire { h with }
  case wake job range => exact h.acquire h
  case release guard => exact h.release he

theorem Sound.of_reachable (h : Reachable (State.start : State J K) Step s) : s.Sound :=
  h.invariant .start fun _ _ hs h => h.step hs

-- The ranges that are held, each by one guard, do not overlap, and have no key in common. Dropping a guard takes
-- out its own range and no other. Ranges that have a key in common overlap, and ranges that overlap have a key in
-- common unless one of them is inverted.
theorem held_apart [Nonempty K] (h : Reachable (start : State J K) Step s) :
    s.held.ranges = s.guards.map (fun g => (g.token, g.range)) ∧
    s.held.ranges.Pairwise (fun a b => a.2.overlaps b.2 = false ∧ ¬∃ k, a.2.Contains k ∧ b.2.Contains k) ∧
    (∀ guard ∈ s.guards, ∃ before after, s.held.ranges = before ++ (guard.token, guard.range) :: after ∧
      (s.exec (.release guard)).held.ranges = before ++ after) ∧
    (∀ a b : KeyRange K, (∃ k, a.Contains k ∧ b.Contains k) → a.overlaps b = true) ∧
    (∀ a b : KeyRange K, ¬a.Inverted → ¬b.Inverted →
      (a.overlaps b = true ↔ ∃ k, a.Contains k ∧ b.Contains k)) := by
  have hs := Sound.of_reachable h
  refine ⟨hs.ranges, ?_, ?_, ?_, ?_⟩
  · rw [hs.ranges, pairwise_map]
    apply hs.apart.imp
    intro g g' hf
    refine ⟨hf, ?_⟩
    rintro ⟨k, hk, hk'⟩
    rw [KeyRange.overlaps_of_contains hk hk'] at hf
    cases hf
  · intro guard hg
    obtain ⟨before, after, hb, hsplit, herase⟩ := exists_erase_eq hg
    refine ⟨before.map fun g => (g.token, g.range), after.map fun g => (g.token, g.range), ?_, ?_⟩
    · rw [hs.ranges, hsplit, map_append, map_cons]
    · rw [← map_append, ← herase]
      exact hs.release_ranges hg
  · rintro a b ⟨k, ha, hb⟩
    exact KeyRange.overlaps_of_contains ha hb
  · intro a b ha hb
    constructor
    case mp => exact KeyRange.exists_contains ha hb
    case mpr =>
      rintro ⟨k, hka, hkb⟩
      exact KeyRange.overlaps_of_contains hka hkb

-- Two jobs lock ranges side by side; one that overlaps both waits, and gets its range once both are gone.
def handover : List (Event Nat Nat) :=
  [.tryAcquire 0 (.new 0 4), .tryAcquire 1 ⟨some 5, none⟩, .acquireBlocking 2 .all, .release ⟨0, 0, .new 0 4⟩,
    .tryAcquire 3 (.new 1 2), .release ⟨1, 1, ⟨some 5, none⟩⟩]

theorem held_apart_handover :
    ((handover.foldl exec start).held.ranges.Pairwise
      (fun a b => a.2.overlaps b.2 = false ∧ ¬∃ k, a.2.Contains k ∧ b.2.Contains k)) ∧
    (handover.foldl exec start).guards = [⟨3, 2, .new 1 2⟩] ∧
    (handover.foldl exec start).waiting = [(2, .all)] := by
  have h : Reachable (start : State Nat Nat) Step (handover.foldl exec start) :=
    Reachable.start.foldl (P := Enabled) (fun _ e he => ⟨e, he, rfl⟩) (by decide)
  exact ⟨(held_apart h).2.1, by decide, by decide⟩

-- An inverted range has no key, and yet overlaps a range around it.
theorem overlaps_inverted : (KeyRange.new 5 3 : KeyRange Nat).overlaps (.new 0 9) = true ∧
    ¬∃ k, (KeyRange.new 5 3 : KeyRange Nat).Contains k ∧ (KeyRange.new 0 9).Contains k := by
  refine ⟨by decide, ?_⟩
  rintro ⟨k, ⟨h₁, h₂⟩, -⟩
  exact absurd ((h₁ 5 rfl).trans (h₂ 3 rfl)) (by decide)

end State

end OndaDb.RangeLock

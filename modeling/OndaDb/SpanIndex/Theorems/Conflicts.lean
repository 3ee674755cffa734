import OndaDb.Lib.Run
import OndaDb.SpanIndex.Basic
import Mathlib.Tactic

namespace OndaDb.SpanIndex

open List

variable {K : Type}

namespace System

structure Sound (capacity : Nat) (s : System K) : Prop where
  size : s.index.capacity = capacity
  reserved : s.index.reserved = s.reservations.sum
  capacity : s.index.markers.length + s.index.reserved ≤ s.index.capacity
  -- A committed write above the floor is in the index, or the watermark stands for it.
  recorded : ∀ m ∈ s.committed, s.floor < m.seq → m ∈ s.index.markers ∨ m.seq ≤ s.index.overflowSeq

variable {s s' : System K}

theorem sound_new : (new n : System K).Sound (max n 1) where
  size := rfl
  reserved := rfl
  capacity := by simp [new, Index.new]
  recorded := by simp [new]

namespace Sound

theorem take (h : s.Sound c) (ht : s.index.take n = some i) :
    Sound c { s with index := i, reservations := n :: s.reservations } := by
  unfold Index.take at ht
  split at ht
  case isFalse => simp at ht
  case isTrue hle =>
    cases Option.some.inj ht
    refine ⟨h.size, ?_, ?_, h.recorded⟩
    · simp [h.reserved, Nat.add_comm]
    · simp only
      omega

theorem tryReserve (h : s.Sound c) (ht : s.index.tryReserve n = (i, some r)) :
    Sound c { s with index := i, reservations := r :: s.reservations } := by
  unfold Index.tryReserve at ht
  split at ht
  case isTrue =>
    cases ht
    exact ⟨h.size, by simp [h.reserved], h.capacity, h.recorded⟩
  split at ht
  case h_1 htake => cases ht; exact h.take htake
  case h_2 => cases ht

theorem dropMarkers (h : s.Sound c) :
    Sound c { s with index := s.index.dropMarkers oldest, floor := max s.floor oldest } where
  __ := h
  capacity := by
    have := length_filter_le (fun m : Marker K => decide (oldest < m.seq)) s.index.markers
    have := h.capacity
    simp only [Index.dropMarkers]
    omega
  recorded m hm hlt := by
    simp only [sup_lt_iff] at hlt
    refine (h.recorded m hm hlt.1).imp_left fun hmem => ?_
    exact mem_filter.mpr ⟨hmem, by simpa using hlt.2⟩

theorem ageOverflow (h : s.Sound c) (ho : oldest ≤ s.floor) :
    Sound c { s with index := s.index.ageOverflow oldest } := by
  unfold Index.ageOverflow
  split
  case isFalse => exact h
  case isTrue hage =>
    -- A write above the floor is above the watermark that ages out.
    refine ⟨h.size, h.reserved, h.capacity, fun m hm hlt => ?_⟩
    exact .inl ((h.recorded m hm hlt).resolve_right (by simp only at hlt; omega))

theorem insert (h : s.Sound c) (hr : s.reservations = rs₁ ++ r :: rs₂) (hpos : 0 < r)
    (hi : s.index.insert r m = (i, r')) :
    Sound c { s with index := i, reservations := rs₁ ++ r' :: rs₂, committed := m :: s.committed } := by
  have hsum := h.reserved
  have hcap := h.capacity
  rw [hr] at hsum
  simp only [sum_append, sum_cons] at hsum
  rw [Index.insert, if_pos hpos] at hi
  cases hi
  refine ⟨h.size, ?_, ?_, fun m' hm' hlt => ?_⟩
  · simp only [sum_append, sum_cons]
    omega
  · simp only [length_append, length_singleton]
    omega
  · rcases mem_cons.mp hm' with rfl | hm'
    · exact .inl (by simp)
    · exact (h.recorded m' hm' hlt).imp_left (mem_append_left _)

theorem drop (h : s.Sound c) (hr : s.reservations = rs₁ ++ r :: rs₂) :
    Sound c { s with index := s.index.release r, reservations := rs₁ ++ rs₂ } := by
  have hsum := h.reserved
  have hcap := h.capacity
  rw [hr] at hsum
  simp only [sum_append, sum_cons] at hsum
  have hrel : s.index.release r = { s.index with reserved := s.index.reserved - r } := by
    unfold Index.release
    split
    case isTrue hr => rw [hr, Nat.sub_zero]
    case isFalse => rfl
  rw [hrel]
  refine ⟨h.size, ?_, ?_, h.recorded⟩
  · simp only [sum_append]
    omega
  · simp only
    omega

theorem overflow (h : s.Sound c) (hms : ∀ m ∈ ms, m.seq ≤ seq) :
    Sound c { s with index := s.index.noteOverflow seq, committed := ms ++ s.committed } where
  __ := h
  recorded m hm hlt := by
    rcases mem_append.mp hm with hm | hm
    · exact .inr ((hms m hm).trans (le_max_right _ _))
    · exact (h.recorded m hm hlt).imp_right (·.trans (le_max_left _ _))

theorem step (h : s.Sound c) (hs : Step s s') : s'.Sound c := by
  cases hs
  case tryReserve ht => exact h.tryReserve ht
  case take ht => exact h.take ht
  case dropMarkers => exact h.dropMarkers
  case ageOverflow ho => exact h.ageOverflow ho
  case insert hr hpos _ => exact h.insert hr hpos ‹_›
  case drop hr => exact h.drop hr
  case overflow hms => exact h.overflow hms

end Sound

theorem prune_run (s : System K) (oldest : Nat) : Relation.ReflTransGen Step s
    { s with index := s.index.prune oldest, floor := max s.floor oldest } :=
  have h₁ : Step s { s with index := s.index.dropMarkers oldest, floor := max s.floor oldest } :=
    .dropMarkers
  (Relation.ReflTransGen.single h₁).tail (.ageOverflow (le_max_right _ _))

theorem reserve_run (s : System K) (n : Nat) (passes : List Index.Pass) :
    ∃ s', Relation.ReflTransGen Step s s' ∧ s'.index = (s.index.reserve n passes).1 ∧
      ∀ r, (s.index.reserve n passes).2 = .ok (some r) → s'.reservations = r :: s.reservations := by
  have hgo : ∀ passes (s : System K), ∃ s', Relation.ReflTransGen Step s s' ∧
      s'.index = (Index.reserve.go n s.index passes).1 ∧
      ∀ r, (Index.reserve.go n s.index passes).2 = .ok (some r) →
        s'.reservations = r :: s.reservations := by
    intro passes
    induction passes
    case nil => exact fun s => ⟨s, .refl, rfl, by simp [Index.reserve.go]⟩
    case cons p passes hi =>
      intro s
      have hp := prune_run s p.oldest
      unfold Index.reserve.go
      simp only
      split
      case h_1 i ht =>
        refine ⟨_, hp.tail (.take ht), rfl, fun r hr => ?_⟩
        simp only [Except.ok.injEq, Option.some.injEq] at hr
        rw [hr]
      case h_2 =>
        split
        · exact ⟨_, hp, rfl, by simp⟩
        · split
          · exact ⟨_, hp, rfl, by simp⟩
          · obtain ⟨s', hs', h₁, h₂⟩ := hi { s with
              index := s.index.prune p.oldest, floor := max s.floor p.oldest }
            exact ⟨s', hp.trans hs', h₁, h₂⟩
  unfold Index.reserve
  split
  case isTrue hn =>
    refine ⟨_, .single (.tryReserve (n := 0) rfl), rfl, fun r hr => ?_⟩
    simp only [Except.ok.injEq, Option.some.injEq] at hr
    rw [hr]
  split
  · exact ⟨s, .refl, rfl, by simp⟩
  · exact hgo passes s

-- A commit that reserved a slot for each of its writes records them in steps that each consume one.
theorem insertMarkers_run {s : System K} (hr : s.reservations = rs₁ ++ r :: rs₂)
    (hle : ws.length ≤ r) :
    ∃ s', Relation.ReflTransGen Step s s' ∧ s'.index = (s.index.insertMarkers r seq ws).1 ∧
      s'.reservations = rs₁ ++ (r - ws.length) :: rs₂ ∧ (∀ m ∈ s.committed, m ∈ s'.committed) ∧
      ∀ i cf start stop, ws[i]? = some (cf, start, stop) → ⟨cf, start, stop, seq + i⟩ ∈ s'.committed := by
  induction ws generalizing s r seq
  case nil => exact ⟨s, .refl, rfl, by simpa using hr, fun _ => id, by simp⟩
  case cons w ws hi =>
    obtain ⟨cf, start, stop⟩ := w
    rw [length_cons] at hle
    have hpos : 0 < r := by omega
    have hins : s.index.insert r ⟨cf, start, stop, seq⟩ =
        ((s.index.insert r ⟨cf, start, stop, seq⟩).1, r - 1) := by
      simp [Index.insert, hpos]
    obtain ⟨s', hrun, hidx, hres, hmono, hmem⟩ := @hi (r - 1) (seq + 1) { s with
      index := (s.index.insert r ⟨cf, start, stop, seq⟩).1
      reservations := rs₁ ++ (r - 1) :: rs₂
      committed := ⟨cf, start, stop, seq⟩ :: s.committed } rfl (by omega)
    refine ⟨s', hrun.head (.insert hr hpos hins), ?_, ?_, ?_, ?_⟩
    · rw [hidx, Index.insertMarkers, hins]
    · rw [hres, length_cons]
      congr 2
      omega
    · exact fun m hm => hmono m (mem_cons_of_mem _ hm)
    · intro i cf' start' stop' hi'
      cases i
      case zero =>
        simp only [getElem?_cons_zero, Option.some.injEq, Prod.mk.injEq] at hi'
        obtain ⟨rfl, rfl, rfl⟩ := hi'
        exact hmono _ mem_cons_self
      case succ i =>
        have := hmem i cf' start' stop' (by simpa using hi')
        rwa [Nat.add_right_comm, Nat.add_assoc] at this

end System

section conflicts

variable [LinearOrder K]

def Marker.Touches (m : Marker K) (k : K) : Prop :=
  match m.stop with
  | none => k = m.start
  | some stop => m.start ≤ k ∧ k < stop

theorem Marker.Touches.covers {m : Marker K} (h : m.Touches k) : m.covers k := by
  unfold Marker.covers
  unfold Touches at h
  split <;> simp_all

theorem Marker.Touches.overlaps {m : Marker K} {start stop : K} (h : m.Touches k) (h₁ : start ≤ k) (h₂ : k < stop) :
    m.overlaps start stop := by
  unfold Marker.overlaps
  unfold Touches at h
  split <;> simp_all
  exact ⟨h.1.trans_lt h₂, h₁.trans_lt h.2⟩

namespace System

variable {s : System K}

namespace Sound

theorem rangeConflict (h : s.Sound c) (hm : m ∈ s.committed) (hf : s.floor ≤ readSeq)
    (hlt : readSeq < m.seq) (ht : m.Touches k) (h₁ : start ≤ k) (h₂ : k < stop) :
    (s.index.rangeConflict m.cf start stop readSeq).isSome := by
  unfold Index.rangeConflict
  split
  case isTrue => rfl
  case isFalse hno =>
    have hmem := (h.recorded m hm (hf.trans_lt hlt)).resolve_right (by omega)
    rw [Option.isSome_map, find?_isSome]
    exact ⟨m, hmem, by simp [hlt, ht.overlaps h₁ h₂]⟩

theorem pointConflict (h : s.Sound c) (hm : m ∈ s.committed) (hr : m.stop.isSome)
    (hf : s.floor ≤ readSeq) (hlt : readSeq < m.seq) (ht : m.Touches key) :
    (s.index.pointConflict m.cf key readSeq).isSome := by
  unfold Index.pointConflict
  split
  case isTrue => rfl
  case isFalse hno =>
    have hmem := (h.recorded m hm (hf.trans_lt hlt)).resolve_right (by omega)
    rw [Option.isSome_map, find?_isSome]
    exact ⟨m, hmem, by simp [hlt, hr, ht.covers]⟩

end Sound

-- In every state of every run: no committed range delete above the reader's snapshot is missed, and
-- the index holds no more than its capacity.
theorem span_index_sound (h : Reachable (new capacity) Step s) :
    s.index.markers.length + s.reservations.sum ≤ max capacity 1 ∧
    ∀ m ∈ s.committed, m.stop.isSome → ∀ readSeq, s.floor ≤ readSeq → readSeq < m.seq →
      (∀ start stop k, m.Touches k → start ≤ k → k < stop →
        (s.index.rangeConflict m.cf start stop readSeq).isSome) ∧
      ∀ key, m.Touches key → (s.index.pointConflict m.cf key readSeq).isSome := by
  have hs : s.Sound (max capacity 1) := h.invariant sound_new fun _ _ hst h => h.step hst
  refine ⟨hs.reserved ▸ hs.size ▸ hs.capacity, fun m hm hr readSeq hf hlt => ⟨?_, ?_⟩⟩
  · exact fun start stop k ht h₁ h₂ => hs.rangeConflict hm hf hlt ht h₁ h₂
  · exact fun key ht => hs.pointConflict hm hr hf hlt ht

-- A range delete at 5 is recorded, a later one at 9 is not. A reader at 4 conflicts with both.
theorem span_index_sound_overflow :
    let m : Marker Nat := ⟨1, 10, some 20, 5⟩
    let s : System Nat := ⟨⟨[m], 0, 1, 0, 9⟩, [0], 0, [⟨1, 30, some 40, 9⟩, m]⟩
    Reachable (new 1) Step s ∧ (s.index.rangeConflict 1 15 17 4).isSome ∧
      (s.index.pointConflict 1 33 4).isSome := by
  intro m s
  let s₁ : System Nat := ⟨⟨[], 1, 1, 0, 0⟩, [1], 0, []⟩
  let s₂ : System Nat := ⟨⟨[m], 0, 1, 0, 0⟩, [0], 0, [m]⟩
  have h₁ : Step (new 1) s₁ := .tryReserve (n := 1) rfl
  have h₂ : Step s₁ s₂ := .insert (m := m) (show s₁.reservations = [] ++ [1] from rfl) (by decide) rfl
  have h₃ : Step s₂ s := .overflow (show ∀ m ∈ [(⟨1, 30, some 40, 9⟩ : Marker Nat)], m.seq ≤ 9 by decide)
  have h : Reachable (new 1) Step s := Reachable.start |>.next h₁ |>.next h₂ |>.next h₃
  have hs := (span_index_sound h).right
  refine ⟨h, ?_, ?_⟩
  · exact (hs m (by simp [s]) rfl 4 (by decide) (by decide)).left 15 17 15 ⟨by decide, by decide⟩
      (by decide) (by decide)
  · exact (hs ⟨1, 30, some 40, 9⟩ (by simp [s]) rfl 4 (by decide) (by decide)).right 33
      ⟨by decide, by decide⟩

end System

end conflicts

end OndaDb.SpanIndex

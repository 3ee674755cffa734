import OndaDb.Publish.Basic
import Mathlib.Data.List.Sort

namespace OndaDb.Publish

open List

structure Disjoint (ranges : List Range) : Prop where
  nonempty : ∀ r ∈ ranges, r.start < r.stop
  apart : ranges.Pairwise fun r₁ r₂ => r₂.stop ≤ r₁.start

theorem Disjoint.cases {ranges : List Range} (h : Disjoint ranges) (h₁ : r₁ ∈ ranges) (h₂ : r₂ ∈ ranges) :
    r₁ = r₂ ∨ r₁.stop ≤ r₂.start ∨ r₂.stop ≤ r₁.start := by
  refine List.Pairwise.forall_of_forall_of_flip
    (R := fun r₁ r₂ : Range => r₁ = r₂ ∨ r₁.stop ≤ r₂.start ∨ r₂.stop ≤ r₁.start)
    (fun _ _ => .inl rfl) (h.apart.imp fun h => .inr (.inr h)) (h.apart.imp fun h => .inr (.inl h)) h₁ h₂

-- The cursor stands between two ranges, with every range below it published, and every published range
-- above it waits for it.
structure Tracks (ranges published : List Range) (p : PublishState) : Prop where
  aligned : ∀ r ∈ ranges, r.stop ≤ p.cursor ∨ p.cursor ≤ r.start
  passed : ∀ r ∈ ranges, r.start < p.cursor → r ∈ published
  waiting : ∀ r ∈ ranges, r ∈ published → p.cursor ≤ r.start → p.completed.lookup r.start = some r.stop
  entries : ∀ start stop, p.completed.lookup start = some stop → ⟨start, stop⟩ ∈ ranges ∧ ⟨start, stop⟩ ∈ published

namespace Tracks

variable {ranges published : List Range} {p : PublishState}

theorem pass (h : Tracks ranges published p) (hd : Disjoint ranges)
    (hl : p.completed.lookup p.cursor = some stop) :
    Tracks ranges published ⟨stop, p.completed.erase p.cursor⟩ := by
  obtain ⟨hr, hp⟩ := h.entries _ _ hl
  have hne := hd.nonempty _ hr
  dsimp only at hne
  constructor <;> dsimp only
  case aligned =>
    intro r hm
    have := h.aligned r hm
    have := hd.nonempty r hm
    rcases hd.cases hm hr with rfl | hc | hc <;> dsimp only at * <;> omega
  case passed =>
    intro r hm hlt
    have := hd.nonempty r hm
    rcases hd.cases hm hr with rfl | hc | hc
    · exact hp
    · exact h.passed r hm (by dsimp only at hc; omega)
    · dsimp only at hc
      omega
  case waiting =>
    intro r hm hpub hle
    rw [Map.lookup_erase_eq, if_neg (by omega)]
    exact h.waiting r hm hpub (by omega)
  case entries =>
    intro a b hab
    rw [Map.lookup_erase_eq] at hab
    split at hab
    · cases hab
    · exact h.entries a b hab

theorem advance (hd : Disjoint ranges) (h : Tracks ranges published p) : Tracks ranges published p.advance := by
  fun_induction PublishState.advance p
  case case1 hl ih => exact ih (h.pass hd hl)
  case case2 hl => exact h

end Tracks

theorem PublishState.lookup_advance (p : PublishState) : p.advance.completed.lookup p.advance.cursor = none := by
  fun_induction PublishState.advance p
  case case1 hl ih => exact ih
  case case2 hl => exact hl

theorem Tracks.cursor_advance {ranges : List Range} (hd : Disjoint ranges) (h : Tracks ranges published p) :
    p.advance.cursor = p.cursor ∨ p.cursor < p.advance.cursor ∧ ∃ r ∈ ranges, r.stop = p.advance.cursor := by
  fun_induction PublishState.advance p
  case case2 hl => exact .inl rfl
  case case1 p stop hl ih =>
    obtain ⟨hr, _⟩ := h.entries _ _ hl
    have hne := hd.nonempty _ hr
    dsimp only at hne
    rcases ih (h.pass hd hl) with he | ⟨hlt, hs⟩
    · exact .inr ⟨he ▸ hne, _, hr, he.symm⟩
    · exact .inr ⟨hne.trans hlt, hs⟩

theorem PublishState.lookup_of_lookup_advance {p : PublishState}
    (h : p.advance.completed.lookup a = some b) : p.completed.lookup a = some b := by
  fun_induction PublishState.advance p
  case case2 => exact h
  case case1 p stop _ ih =>
    have he := ih h
    rw [Map.lookup_erase_eq] at he
    split at he
    · cases he
    · exact he

theorem PublishState.cursor_le_advance {p : PublishState}
    (h : ∀ a b, p.completed.lookup a = some b → a < b) : p.cursor ≤ p.advance.cursor := by
  fun_induction PublishState.advance p
  case case2 => exact le_rfl
  case case1 p stop hl ih =>
    refine (h _ _ hl).le.trans (ih fun a b hab => h a b ?_)
    rw [Map.lookup_erase_eq] at hab
    split at hab
    · cases hab
    · exact hab

namespace System

variable {s : System}

structure Counted (s : System) : Prop where
  visible : s.visibleSeq + 1 = s.cursor
  nonempty : ∀ r ∈ s.ranges, r.start < r.stop
  entries : ∀ a b, s.sequences.publish.completed.lookup a = some b → a < b

namespace Counted

theorem ofManifest (globalSeq : Nat) : (ofManifest globalSeq).Counted where
  visible := rfl
  nonempty := by simp [System.ofManifest]
  entries := by simp [System.ofManifest, Sequences.ofManifest]

theorem lookup_insert_lt (h : s.Counted) (hr : r ∈ s.ranges) (a b : Nat)
    (hab : (s.sequences.publish.completed.insert r.start r.stop).lookup a = some b) : a < b := by
  rw [Map.lookup_insert_eq] at hab
  split at hab
  case isTrue ha =>
    cases hab
    exact ha ▸ h.nonempty r hr
  case isFalse => exact h.entries a b hab

theorem visibleSeq_le_exec (h : s.Counted) (he : s.Enabled e) : s.visibleSeq ≤ (s.exec e).visibleSeq := by
  have hv : s.sequences.visible + 1 = s.sequences.publish.cursor := h.visible
  cases e <;> simp only [System.exec, visibleSeq, le_refl, Sequences.reserveSeq]
  case publish r =>
    have := PublishState.cursor_le_advance (p := { s.sequences.publish with
      completed := s.sequences.publish.completed.insert r.start r.stop }) (h.lookup_insert_lt he.left)
    dsimp only [Sequences.publishRange] at this ⊢
    omega
  case observeNext =>
    unfold Sequences.observeNext
    split <;> exact le_rfl
  case observeCursor o =>
    unfold Sequences.observeCursor
    repeat' split
    · exact le_rfl
    · dsimp only
      omega
    · exact le_rfl

theorem exec (h : s.Counted) (he : s.Enabled e) : (s.exec e).Counted := by
  have hv : s.sequences.visible + 1 = s.sequences.publish.cursor := h.visible
  cases e
  case reserve n =>
    exact ⟨h.visible, forall_mem_cons.mpr ⟨Nat.lt_add_of_pos_right he, h.nonempty⟩, h.entries⟩
  case publish r =>
    have := PublishState.cursor_le_advance (p := { s.sequences.publish with
      completed := s.sequences.publish.completed.insert r.start r.stop }) (h.lookup_insert_lt he.left)
    refine ⟨?_, h.nonempty, fun a b hab => ?_⟩
    · simp only [System.exec, Sequences.publishRange, visibleSeq, cursor]
      dsimp only at this
      omega
    · exact h.lookup_insert_lt he.left a b (PublishState.lookup_of_lookup_advance hab)
  case observeNext seq =>
    simp only [System.exec, Sequences.observeNext]
    split <;> exact { h with }
  case observeCursor o =>
    simp only [System.exec, Sequences.observeCursor]
    repeat' split
    · exact { h with }
    · exact ⟨rfl, h.nonempty, h.entries⟩
    · exact { h with }
  all_goals exact { h with }

theorem of_reachable (h : Reachable (System.ofManifest globalSeq) Step s) : s.Counted := by
  refine h.invariant (ofManifest globalSeq) fun s s' hs hc => ?_
  obtain ⟨e, he, rfl⟩ := hs
  exact hc.exec he

end Counted

-- What holds of the counters between two steps. Every sequence from the cursor on belongs to a range or
-- to the gap of an `observe_seq` in progress, and no range above such a gap is published.
structure Gapless (s : System) : Prop where
  disjoint : Disjoint s.ranges
  bounded : ∀ r ∈ s.ranges, r.stop ≤ s.sequences.nextSeq
  known : ∀ r ∈ s.published, r ∈ s.ranges
  tracks : Tracks s.ranges s.published s.sequences.publish
  drained : s.sequences.publish.completed.lookup s.cursor = none
  visible : s.visibleSeq + 1 = s.cursor
  cursorLe : s.cursor ≤ s.sequences.nextSeq
  tiled : ∀ seq, s.cursor ≤ seq → seq < s.sequences.nextSeq →
    (∃ r ∈ s.ranges, r.Holds seq) ∨ ∃ o ∈ s.observing, o.found ≤ seq ∧ seq ≤ o.seq
  gaps : ∀ o ∈ s.observing, o.seq < s.sequences.nextSeq ∧
    ∀ r ∈ s.ranges, r.stop ≤ o.found ∨ o.seq < r.start
  above : ∀ o ∈ s.observing, o.found ≤ o.seq → s.cursor ≤ o.seq → ∀ r ∈ s.published, r.start ≤ o.seq
  lastGe : s.cursor ≤ s.last + 1 ∧ ∀ r ∈ s.ranges, r.stop ≤ s.last + 1
  lastLe : s.last + 1 ≤ s.cursor ∨ ∃ r ∈ s.ranges, r.stop = s.last + 1

namespace Gapless

-- No published range is ahead of the cursor unless some range is outstanding at or below it.
theorem exists_outstanding (h : s.Gapless) (hr : r ∈ s.ranges) (hp : r ∈ s.published) (hc : s.cursor ≤ r.start) :
    ∃ r' ∈ s.ranges, r'.start = s.cursor ∧ r' ∉ s.published := by
  have hne := h.disjoint.nonempty r hr
  have hb := h.bounded r hr
  rcases h.tiled s.cursor le_rfl (by omega) with ⟨r', hr', hl, hu⟩ | ⟨o, ho, hf, hs⟩
  · have hal := h.tracks.aligned r' hr'
    have hstart : r'.start = s.cursor := by
      change r'.stop ≤ s.cursor ∨ s.cursor ≤ r'.start at hal
      omega
    refine ⟨r', hr', hstart, fun hp' => ?_⟩
    have hw := h.tracks.waiting r' hr' hp' hstart.ge
    rw [hstart, h.drained] at hw
    cases hw
  · have hgap := (h.gaps o ho).right r hr
    have := h.above o ho (hf.trans hs) hs r hp
    omega

theorem lt_start (h : s.Gapless) (hs : ∀ r ∈ s.ranges, r.start ≤ seq → r ∈ s.published) (hc : s.cursor ≤ seq)
    (hr : r ∈ s.ranges) (hl : s.cursor ≤ r.start) : seq < r.start := by
  by_contra hle
  obtain ⟨r', hr', hst, hp'⟩ := h.exists_outstanding hr (hs r hr (not_lt.mp hle)) hl
  exact hp' (hs r' hr' (hst ▸ hc))

theorem ofManifest (globalSeq : Nat) : (ofManifest globalSeq).Gapless where
  disjoint := ⟨by simp [System.ofManifest], .nil⟩
  bounded := by simp [System.ofManifest]
  known := by simp [System.ofManifest]
  tracks := by constructor <;> simp [System.ofManifest, Sequences.ofManifest]
  drained := rfl
  visible := rfl
  cursorLe := le_rfl
  tiled := fun _ h₁ h₂ => absurd h₁ (not_le.mpr h₂)
  gaps := by simp [System.ofManifest]
  above := by simp [System.ofManifest]
  lastGe := ⟨le_rfl, by simp [System.ofManifest]⟩
  lastLe := .inl le_rfl

theorem reserve (h : s.Gapless) (hn : 0 < n) : (s.exec (.reserve n)).Gapless := by
  have hcl : s.sequences.publish.cursor ≤ s.sequences.nextSeq := h.cursorLe
  constructor <;> simp only [exec, Sequences.reserveSeq, visibleSeq, cursor, forall_mem_cons]
  case disjoint =>
    refine ⟨forall_mem_cons.mpr ⟨Nat.lt_add_of_pos_right hn, h.disjoint.nonempty⟩, ?_⟩
    exact pairwise_cons.mpr ⟨h.bounded, h.disjoint.apart⟩
  case bounded => exact ⟨le_rfl, fun r hr => (h.bounded r hr).trans (Nat.le_add_right ..)⟩
  case known => exact fun r hr => mem_cons_of_mem _ (h.known r hr)
  case tracks =>
    constructor
    case aligned => exact forall_mem_cons.mpr ⟨.inr hcl, h.tracks.aligned⟩
    case passed =>
      exact forall_mem_cons.mpr ⟨fun hlt => absurd hlt (not_lt.mpr hcl), h.tracks.passed⟩
    case waiting =>
      refine forall_mem_cons.mpr ⟨fun hp => ?_, h.tracks.waiting⟩
      have := h.bounded _ (h.known _ hp)
      dsimp only at this
      omega
    case entries => exact fun a b hab => (h.tracks.entries a b hab).imp_left (mem_cons_of_mem _)
  case drained => exact h.drained
  case visible => exact h.visible
  case cursorLe => exact hcl.trans (Nat.le_add_right ..)
  case tiled =>
    intro seq hc hlt
    by_cases hn : seq < s.sequences.nextSeq
    · refine (h.tiled seq hc hn).imp_left ?_
      rintro ⟨r, hr, hs⟩
      exact ⟨r, mem_cons_of_mem _ hr, hs⟩
    · exact .inl ⟨_, mem_cons_self, not_lt.mp hn, hlt⟩
  case gaps =>
    intro o ho
    obtain ⟨hlt, hr⟩ := h.gaps o ho
    exact ⟨hlt.trans_le (Nat.le_add_right ..), .inr hlt, hr⟩
  case above => exact h.above
  case lastGe =>
    refine ⟨by omega, by omega, fun r hr => ?_⟩
    have := h.bounded r hr
    omega
  case lastLe => exact .inr ⟨_, mem_cons_self, by dsimp only; omega⟩

theorem publish (h : s.Gapless) (hr : r ∈ s.ranges) (hp : r ∉ s.published) (ho : s.Orderly (.publish r)) :
    (s.exec (.publish r)).Gapless := by
  have hne := h.disjoint.nonempty r hr
  have hc : s.sequences.publish.cursor ≤ r.start := by
    by_contra hlt
    exact hp (h.tracks.passed r hr (not_le.mp hlt))
  have ht : Tracks s.ranges (r :: s.published)
      { s.sequences.publish with completed := s.sequences.publish.completed.insert r.start r.stop } := by
    constructor <;> dsimp only
    case aligned => exact h.tracks.aligned
    case passed => exact fun r' hr' hlt => mem_cons_of_mem _ (h.tracks.passed r' hr' hlt)
    case waiting =>
      intro r' hr' hp' hle
      rw [Map.lookup_insert_eq]
      rcases h.disjoint.cases hr' hr with rfl | hd
      · rw [if_pos rfl]
      · have := h.disjoint.nonempty r' hr'
        rw [if_neg (by omega)]
        refine h.tracks.waiting r' hr' ((mem_cons.mp hp').resolve_left ?_) hle
        rintro rfl
        omega
    case entries =>
      intro a b hab
      rw [Map.lookup_insert_eq] at hab
      split at hab
      case isTrue ha =>
        cases hab
        subst ha
        exact ⟨hr, mem_cons_self⟩
      case isFalse ha => exact (h.tracks.entries a b hab).imp_right (mem_cons_of_mem _)
  have hcur := ht.cursor_advance h.disjoint
  dsimp only at hcur
  have hcp : 0 < s.cursor := h.visible ▸ Nat.succ_pos _
  constructor <;> simp only [exec, Sequences.publishRange, visibleSeq, cursor, forall_mem_cons]
  case disjoint => exact h.disjoint
  case bounded => exact h.bounded
  case known => exact ⟨hr, h.known⟩
  case tracks => exact ht.advance h.disjoint
  case drained => exact PublishState.lookup_advance _
  case visible =>
    change 0 < s.sequences.publish.cursor at hcp
    omega
  case cursorLe =>
    rcases hcur with he | ⟨_, r', hr', he⟩
    · exact he.le.trans h.cursorLe
    · exact he ▸ h.bounded r' hr'
  case tiled => exact fun seq hle => h.tiled seq (by unfold cursor; omega)
  case gaps => exact h.gaps
  case above =>
    intro o hm hf hle
    refine ⟨?_, h.above o hm hf (by unfold cursor; omega)⟩
    by_contra hlt
    have := ho o hm hf (not_le.mp hlt)
    unfold cursor at this
    omega
  case lastGe =>
    refine ⟨?_, h.lastGe.right⟩
    rcases hcur with he | ⟨_, r', hr', he⟩
    · exact he.le.trans h.lastGe.left
    · exact he ▸ h.lastGe.right r' hr'
  case lastLe => exact h.lastLe.imp_left fun hl => by unfold cursor at hl; omega

theorem cursor_pos (h : s.Gapless) : 0 < s.cursor :=
  h.visible ▸ Nat.succ_pos _

theorem exec_observeNext (h : s.Gapless) :
    s.exec (.observeNext seq) = { s with
      sequences := { s.sequences with nextSeq := max s.sequences.nextSeq (seq + 1) }
      observing := ⟨s.sequences.nextSeq, seq⟩ :: s.observing } := by
  have := h.cursor_pos.trans_le h.cursorLe
  simp only [exec, Sequences.observeNext]
  split
  case isTrue hs => rw [hs, max_eq_left (by omega)]
  case isFalse => rfl

theorem exec_observeCursor_of_lt (h : s.Gapless) (hlt : o.seq < s.cursor) :
    s.exec (.observeCursor o) = { s with observing := s.observing.erase o } := by
  have := h.lastGe.left
  simp only [exec, Sequences.observeCursor]
  unfold cursor at *
  rw [max_eq_left (by omega), if_neg (c := o.seq + 1 > _) (by omega), ite_self]

theorem exec_observeCursor_of_le (h : s.Gapless) (hle : s.cursor ≤ o.seq) :
    s.exec (.observeCursor o) = { s with
      sequences := { s.sequences with
        publish := { s.sequences.publish with cursor := o.seq + 1 }
        visible := o.seq }
      observing := s.observing.erase o
      last := max s.last o.seq } := by
  have := h.cursor_pos
  simp only [exec, Sequences.observeCursor]
  unfold cursor at *
  rw [if_neg (by omega), if_pos (by omega)]

theorem observeNext (h : s.Gapless) : (s.exec (.observeNext seq)).Gapless := by
  have hcl : s.sequences.publish.cursor ≤ s.sequences.nextSeq := h.cursorLe
  rw [exec_observeNext h]
  constructor <;> simp only [visibleSeq, cursor, forall_mem_cons]
  case disjoint => exact h.disjoint
  case bounded => exact fun r hr => (h.bounded r hr).trans (Nat.le_max_left ..)
  case known => exact h.known
  case tracks => exact h.tracks
  case drained => exact h.drained
  case visible => exact h.visible
  case cursorLe => exact hcl.trans (Nat.le_max_left ..)
  case tiled =>
    intro q hc hlt
    by_cases hn : q < s.sequences.nextSeq
    · refine (h.tiled q hc hn).imp_right ?_
      rintro ⟨o, ho, hq⟩
      exact ⟨o, mem_cons_of_mem _ ho, hq⟩
    · exact .inr ⟨_, mem_cons_self, not_lt.mp hn, by dsimp only; omega⟩
  case gaps =>
    refine ⟨⟨by omega, fun r hr => .inl (h.bounded r hr)⟩, fun o ho => ?_⟩
    exact (h.gaps o ho).imp_left (·.trans_le (Nat.le_max_left ..))
  case above =>
    refine ⟨fun hle hc r hr => ?_, h.above⟩
    have hr := h.known r hr
    have := h.disjoint.nonempty r hr
    have := h.bounded r hr
    omega
  case lastGe => exact h.lastGe
  case lastLe => exact h.lastLe

theorem observeCursor (h : s.Gapless) (ho : o ∈ s.observing) (hord : s.Orderly (.observeCursor o)) :
    (s.exec (.observeCursor o)).Gapless := by
  have hmem (o' : Observing) (hm : o' ∈ s.observing) (hne : o.seq < o'.seq) : o' ∈ s.observing.erase o := by
    refine (mem_erase_of_ne ?_).mpr hm
    rintro rfl
    exact lt_irrefl _ hne
  by_cases hlt : o.seq < s.cursor
  case pos =>
    rw [h.exec_observeCursor_of_lt hlt]
    constructor
    case disjoint => exact h.disjoint
    case bounded => exact h.bounded
    case known => exact h.known
    case tracks => exact h.tracks
    case drained => exact h.drained
    case visible => exact h.visible
    case cursorLe => exact h.cursorLe
    case tiled =>
      intro q hc hq
      refine (h.tiled q hc hq).imp_right ?_
      rintro ⟨o', hm, hf, hs⟩
      exact ⟨o', hmem o' hm (hlt.trans_le (hc.trans hs)), hf, hs⟩
    case gaps => exact fun o' hm => h.gaps o' (mem_of_mem_erase hm)
    case above => exact fun o' hm => h.above o' (mem_of_mem_erase hm)
    case lastGe => exact h.lastGe
    case lastLe => exact h.lastLe
  have hs := hord.resolve_left hlt
  have hlt : s.sequences.publish.cursor ≤ o.seq := not_lt.mp hlt
  -- A range is below the old cursor or above what is adopted.
  have hside (r : Range) (hr : r ∈ s.ranges) : r.stop ≤ s.sequences.publish.cursor ∨ o.seq < r.start :=
    (h.tracks.aligned r hr).imp_right (h.lt_start hs hlt hr)
  rw [h.exec_observeCursor_of_le hlt]
  constructor <;> simp only [visibleSeq, cursor]
  case disjoint => exact h.disjoint
  case bounded => exact h.bounded
  case known => exact h.known
  case tracks =>
    constructor <;> dsimp only
    case aligned =>
      intro r hr
      have := hside r hr
      omega
    case passed => exact fun r hr hle => hs r hr (Nat.lt_succ_iff.mp hle)
    case waiting => exact fun r hr hp hle => h.tracks.waiting r hr hp (by omega)
    case entries => exact h.tracks.entries
  case drained =>
    -- A range that waits there would be above the gap of some call, or in front of an outstanding one.
    refine Option.eq_none_iff_forall_ne_some.mpr fun stop hl => ?_
    obtain ⟨hr, hp⟩ := h.tracks.entries _ _ hl
    obtain ⟨r', hr', hst, hp'⟩ := h.exists_outstanding hr hp (by unfold cursor; dsimp only; omega)
    unfold cursor at hst
    exact hp' (hs r' hr' (by omega))
  case cursorLe => exact (h.gaps o ho).left
  case tiled =>
    intro q hc hq
    refine (h.tiled q (by unfold cursor; omega) hq).imp_right ?_
    rintro ⟨o', hm, hf, hs⟩
    exact ⟨o', hmem o' hm (by omega), hf, hs⟩
  case gaps => exact fun o' hm => h.gaps o' (mem_of_mem_erase hm)
  case above => exact fun o' hm hf hle => h.above o' (mem_of_mem_erase hm) hf (by unfold cursor; omega)
  case lastGe => exact ⟨by omega, fun r hr => (h.lastGe.right r hr).trans (by omega)⟩
  case lastLe =>
    rcases h.lastLe with hl | ⟨r, hr, hstop⟩
    · unfold cursor at hl
      exact .inl (by omega)
    · have := hside r hr
      by_cases hle : s.last ≤ o.seq
      · exact .inl (by omega)
      · exact .inr ⟨r, hr, by omega⟩

theorem exec (h : s.Gapless) (he : s.Enabled e) (ho : s.Orderly e) : (s.exec e).Gapless := by
  cases e
  case reserve => exact h.reserve he
  case publish => exact h.publish he.left he.right.right ho
  case observeNext => exact h.observeNext
  case observeCursor => exact h.observeCursor he ho
  all_goals
    exact { h with }

end Gapless

structure Applied (s : System) : Prop where
  known : ∀ r ∈ s.applied, r ∈ s.ranges
  published : ∀ r ∈ s.published, r ∈ s.applied
  installed : ∀ r ∈ s.applied, (∀ seq, r.Holds seq → seq ∉ s.installed) ∨ ∀ seq, r.Holds seq → seq ∈ s.installed
  pinned : ∀ pin ∈ s.pins, pin ≤ s.visibleSeq ∧ ∀ r ∈ s.ranges, r.stop ≤ pin + 1 ∨ pin < r.start

namespace Applied

theorem ofManifest (globalSeq : Nat) : (ofManifest globalSeq).Applied := by
  constructor <;> simp [System.ofManifest]

theorem pinned_exec (h : s.Applied) (hg : s.Gapless) (he : s.Enabled e) :
    ∀ pin ∈ (s.exec e).pins, pin ≤ (s.exec e).visibleSeq ∧
      ∀ r ∈ (s.exec e).ranges, r.stop ≤ pin + 1 ∨ pin < r.start := by
  have hv := Counted.visibleSeq_le_exec ⟨hg.visible, hg.disjoint.nonempty, fun a b hab =>
    hg.disjoint.nonempty _ (hg.tracks.entries a b hab).left⟩ he
  have hvis : s.visibleSeq + 1 = s.cursor := hg.visible
  have hcl := hg.cursorLe
  cases e
  case reserve =>
    intro pin hp
    obtain ⟨hle, hr⟩ := h.pinned pin hp
    exact ⟨hle, forall_mem_cons.mpr ⟨.inr (by dsimp only; omega), hr⟩⟩
  case pin =>
    refine forall_mem_cons.mpr ⟨⟨le_rfl, fun r hr => ?_⟩, h.pinned⟩
    have := hg.tracks.aligned r hr
    change r.stop ≤ s.cursor ∨ s.cursor ≤ r.start at this
    omega
  all_goals exact fun pin hp => ⟨(h.pinned pin hp).left.trans hv, (h.pinned pin hp).right⟩

theorem exec (h : s.Applied) (hg : s.Gapless) (he : s.Enabled e) (ho : s.Orderly e) : (s.exec e).Applied := by
  have hp := h.pinned_exec hg he
  cases e
  case reserve => exact ⟨fun r hr => mem_cons_of_mem _ (h.known r hr), h.published, h.installed, hp⟩
  case install r seq =>
    obtain ⟨hr, ha, hs⟩ := he
    refine ⟨h.known, h.published, fun r' hr' => ?_, hp⟩
    refine (h.installed r' hr').imp (fun hn q hq => ?_) fun hi q hq => mem_cons_of_mem _ (hi q hq)
    refine mt mem_cons.mp (not_or.mpr ⟨?_, hn q hq⟩)
    rintro rfl
    rcases hg.disjoint.cases hr (h.known r' hr') with rfl | hd
    · exact ha hr'
    · unfold Range.Holds at *
      omega
  case applyOk =>
    exact ⟨forall_mem_cons.mpr ⟨he.left, h.known⟩, fun r hr => mem_cons_of_mem _ (h.published r hr),
      forall_mem_cons.mpr ⟨.inr he.right.right, h.installed⟩, hp⟩
  case applyErr =>
    exact ⟨forall_mem_cons.mpr ⟨he.left, h.known⟩, fun r hr => mem_cons_of_mem _ (h.published r hr),
      forall_mem_cons.mpr ⟨.inl ho, h.installed⟩, hp⟩
  case publish => exact ⟨h.known, forall_mem_cons.mpr ⟨he.right.left, h.published⟩, h.installed, hp⟩
  all_goals exact ⟨h.known, h.published, h.installed, hp⟩

theorem whole (h : s.Applied) (hg : s.Gapless) (hle : pin ≤ s.visibleSeq) (hr : r ∈ s.ranges)
    (hs : r.stop ≤ pin + 1 ∨ pin < r.start) : s.Whole pin r := by
  rcases hs with hs | hs
  · have hne := hg.disjoint.nonempty r hr
    have hvis : s.visibleSeq + 1 = s.cursor := hg.visible
    have hp := hg.tracks.passed r hr (by unfold cursor at hvis; omega)
    refine (h.installed r (h.published r hp)).imp (fun hn q hq hi => absurd hi (hn q hq)) fun hi q hq => ?_
    exact ⟨hi q hq, by unfold Range.Holds at hq; omega⟩
  · exact .inl fun q hq _ => hs.trans_le hq.left

end Applied

section Examples

def commit (r : Range) : List Event :=
  [.reserve 1, .install r r.start, .applyOk r, .publish r]

def runOf (events : List Event) : System :=
  events.foldl exec (ofManifest 0)

end Examples

end System

end OndaDb.Publish

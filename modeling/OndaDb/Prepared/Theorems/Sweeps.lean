import OndaDb.Prepared.Sweeps
import OndaDb.Prepared.Theorems.Gens

namespace OndaDb.Prepared

open List

variable {I : Type}

namespace Tombstone

def unlinkedAll (l : List Nat) (t : Tombstone I) : Tombstone I :=
  { t with
    prepareDeleted := t.prepareDeleted || t.prepareGen ∈ l
    decisionDeleted := t.decisionDeleted || t.decisionGen ∈ l }

variable {t : Tombstone I} {l : List Nat} {gen : Nat}

theorem unlinkedAll_nil : t.unlinkedAll [] = t := by
  simp [unlinkedAll]

theorem unlinkedAll_cons : t.unlinkedAll (gen :: l) = (t.unlinked gen).unlinkedAll l := by
  simp only [unlinkedAll, unlinked, mem_cons, Bool.decide_or, Bool.or_assoc]
  congr

theorem retired_unlinkedAll (h : t.retired) : (t.unlinkedAll l).retired := by
  simp only [retired, unlinkedAll, Bool.and_eq_true, Bool.or_eq_true] at *
  exact ⟨.inl h.1, .inl h.2⟩

end Tombstone

namespace WalGenState

variable {g : WalGenState I} {n : Nat}

theorem mem_sweepLoop_tombs (ht : t ∈ (sweepLoop n g).2.2.tombs) :
    ∃ t' ∈ g.tombs, t = t'.unlinkedAll (sweepLoop n g).1 := by
  induction n generalizing g
  case zero => exact ⟨t, ht, Tombstone.unlinkedAll_nil.symm⟩
  case succ n ih =>
    rw [sweepLoop] at ht ⊢
    split at ht
    case h_1 => exact ⟨t, ht, Tombstone.unlinkedAll_nil.symm⟩
    case h_2 gen h =>
      obtain ⟨t', ht', rfl⟩ := ih ht
      obtain ⟨t, htm, rfl⟩ := mem_map.mp (mem_filter.mp ht').1
      exact ⟨t, htm, Tombstone.unlinkedAll_cons.symm⟩

theorem sweepLoop_tombs_of_mem (ht : t ∈ g.tombs) :
    t.unlinkedAll (sweepLoop n g).1 ∈ (sweepLoop n g).2.2.tombs ∨ (t.unlinkedAll (sweepLoop n g).1).retired := by
  induction n generalizing g t
  case zero =>
    rw [sweepLoop, Tombstone.unlinkedAll_nil]
    exact .inl ht
  case succ n ih =>
    rw [sweepLoop]
    split
    case h_1 =>
      rw [Tombstone.unlinkedAll_nil]
      exact .inl ht
    case h_2 gen h =>
      rw [Tombstone.unlinkedAll_cons]
      by_cases hr : (t.unlinked gen).retired
      case pos => exact .inr (Tombstone.retired_unlinkedAll hr)
      apply ih
      exact mem_filter.mpr ⟨mem_map_of_mem ht, by simpa using hr⟩

theorem nextRetirable_sweepLoop (h : g.flushed.length ≤ n) : (sweepLoop n g).2.2.nextRetirable = none := by
  induction n generalizing g
  case zero =>
    rw [sweepLoop, nextRetirable, length_eq_zero_iff.mp (Nat.le_zero.mp h)]
    rfl
  case succ n ih =>
    rw [sweepLoop]
    split
    case h_1 hn => exact hn
    case h_2 gen hg =>
      apply ih
      have hlt : (g.flushed.filter (· ≠ gen)).length < g.flushed.length :=
        length_filter_lt_length_iff_exists.mpr ⟨gen, nextRetirable_mem hg, by simp⟩
      exact Nat.le_of_lt_succ (hlt.trans_le h)

end WalGenState

namespace Sweeps

variable {s s' : Sweeps I}

-- A tombstone knows which of its generations are gone; a pair has a tombstone until both are.
structure Sound (s : Sweeps I) : Prop where
  tombs : ∀ t ∈ s.gens.tombs, t.pair ∈ s.pairs ∧ (t.prepareDeleted ↔ t.prepareGen ∈ s.gone) ∧
    (t.decisionDeleted ↔ t.decisionGen ∈ s.gone)
  pairs : ∀ p ∈ s.pairs, (∃ t ∈ s.gens.tombs, t.pair = p) ∨ p.prepareGen ∈ s.gone ∧ p.decisionGen ∈ s.gone
  decided : ∀ p ∈ s.pairs, p.prepareGen ∈ s.gone → p.decisionGen ∈ s.gens.flushed ∨ p.decisionGen ∈ s.gone
  prepared : ∀ p ∈ s.pairs, Before p.prepareGen p.decisionGen s.gone

theorem Sound.start : (start : Sweeps I).Sound := by
  constructor <;> simp [Sweeps.start, WalGenState.new]

theorem Sound.record (h : s.Sound) (hp : pair.prepareGen ∉ s.gone) (hd : pair.decisionGen ∉ s.gone) :
    Sound ⟨{ s.gens with live }.recordPair pair.id pair.prepareGen pair.decisionGen, s.pairs ++ [pair], s.gone⟩ := by
  constructor
  case tombs =>
    simp only [WalGenState.recordPair, mem_append, mem_singleton]
    rintro t (ht | rfl)
    · exact ⟨.inl (h.tombs t ht).1, (h.tombs t ht).2⟩
    · exact ⟨.inr rfl, by simpa using hp, by simpa using hd⟩
  case pairs =>
    simp only [WalGenState.recordPair, mem_append, mem_singleton]
    rintro p (hm | rfl)
    · rcases h.pairs p hm with ⟨t, ht, rfl⟩ | hgone
      · exact .inl ⟨t, .inl ht, rfl⟩
      · exact .inr hgone
    · exact .inl ⟨_, .inr rfl, rfl⟩
  case decided =>
    simp only [mem_append, mem_singleton]
    rintro p (hm | rfl) hg
    · exact h.decided p hm hg
    · exact absurd hg hp
  case prepared =>
    simp only [mem_append, mem_singleton]
    rintro p (hm | rfl)
    · exact h.prepared p hm
    · rintro l₁ l₂ hl
      exact absurd (hl ▸ mem_append_right _ (mem_cons_self ..)) hd

theorem Sound.mono (h : s.Sound) {gens : WalGenState I} (ht : gens.tombs = s.gens.tombs)
    (hf : s.gens.flushed ⊆ gens.flushed) : Sound { s with gens } where
  tombs := ht ▸ h.tombs
  pairs := ht ▸ h.pairs
  decided := fun p hm hg => (h.decided p hm hg).imp_left fun hd => hf hd
  __ := h

theorem before_append (h : Before P D l) (h' : P ∈ l ∨ Before P D l') : Before P D (l ++ l') := by
  intro l₁ l₂ heq
  rcases append_eq_append_iff.mp heq with ⟨m, rfl, hl'⟩ | ⟨m, rfl, hm⟩
  · rcases h' with h' | h'
    · exact .inr (mem_append_left _ h')
    · exact (h' m l₂ hl').imp_right (mem_append_right _)
  · cases m
    case nil =>
      rcases h' with h' | h'
      · exact .inr (by simpa using h')
      · exact (h' [] l₂ hm.symm).imp_right fun h => by cases h
    case cons x m =>
      cases hm
      exact h l₁ m rfl

theorem Sound.sweep_prepared (h : s.Sound) (hp : p ∈ s.pairs) :
    p.prepareGen ∈ s.gone ∨ Before p.prepareGen p.decisionGen s.gens.sweep.1 := by
  rcases h.pairs p hp with ⟨t, ht, rfl⟩ | ⟨hg, -⟩
  · exact (s.gens.sweep_swept.before t ht).imp_left (h.tombs t ht).2.1.mp
  · exact .inl hg

theorem Sound.sweep_decided (h : s.Sound) (hp : p ∈ s.pairs) (hl : p.prepareGen ∈ s.gens.sweep.1) :
    p.decisionGen ∈ s.gens.flushed ∨ p.decisionGen ∈ s.gone := by
  rcases h.pairs p hp with ⟨t, ht, rfl⟩ | ⟨-, hg⟩
  · rcases s.gens.sweep_swept.after t ht hl with hd | hd | hd
    · exact h.decided _ hp ((h.tombs t ht).2.1.mp hd)
    · exact .inr ((h.tombs t ht).2.2.mp hd)
    · exact .inl hd
  · exact .inr hg

theorem Sound.sweep (h : s.Sound) : (s.exec .sweep).Sound := by
  have hsw := s.gens.sweep_swept
  constructor
  case tombs =>
    intro t ht
    obtain ⟨t', ht', rfl⟩ := WalGenState.mem_sweepLoop_tombs ht
    obtain ⟨hp, hpd, hdd⟩ := h.tombs t' ht'
    refine ⟨hp, ?_, ?_⟩
    · simp only [Tombstone.unlinkedAll, Bool.or_eq_true, hpd, decide_eq_true_eq]
      exact mem_append.symm
    · simp only [Tombstone.unlinkedAll, Bool.or_eq_true, hdd, decide_eq_true_eq]
      exact mem_append.symm
  case pairs =>
    intro p hp
    rcases h.pairs p hp with ⟨t, ht, rfl⟩ | ⟨hpg, hdg⟩
    · rcases WalGenState.sweepLoop_tombs_of_mem (n := s.gens.flushed.length) ht with hm | hr
      · exact .inl ⟨_, hm, rfl⟩
      · obtain ⟨-, hpd, hdd⟩ := h.tombs t ht
        simp only [Tombstone.retired, Tombstone.unlinkedAll, Bool.and_eq_true, Bool.or_eq_true, hpd, hdd,
          decide_eq_true_eq] at hr
        exact .inr ⟨mem_append.mpr hr.1, mem_append.mpr hr.2⟩
    · exact .inr ⟨mem_append_left _ hpg, mem_append_left _ hdg⟩
  case decided =>
    intro p hp hg
    have hor : p.decisionGen ∈ s.gens.flushed ∨ p.decisionGen ∈ s.gone := by
      rcases mem_append.mp hg with hg | hg
      · exact h.decided p hp hg
      · exact h.sweep_decided hp hg
    by_cases hl : p.decisionGen ∈ s.gens.sweep.1
    case pos => exact .inr (mem_append_right _ hl)
    rcases hor with hf | hg
    · exact .inl ((hsw.flushed _).mpr ⟨hf, hl⟩)
    · exact .inr (mem_append_left _ hg)
  case prepared => exact fun p hp => before_append (h.prepared p hp) (h.sweep_prepared hp)

theorem Sound.step (h : s.Sound) (hs : TimelyStep s s') : s'.Sound := by
  obtain ⟨op, -, ht, rfl⟩ := hs
  cases op
  case pin gen => exact h.mono rfl (List.Subset.refl _)
  case resolved pair => exact h.record ht.1 ht.2
  case recordPair pair => exact h.record ht.1 ht.2
  case markFlushed gen =>
    apply h.mono
    · exact WalGenState.tombs_foldl_markFlushed [gen] s.gens
    · exact fun x hx => WalGenState.mem_markFlushed.mpr (.inr hx)
  case sweep => exact h.sweep

theorem Sound.of_reachable (h : Reachable Sweeps.start TimelyStep s) : s.Sound :=
  h.invariant .start fun _ _ hs h => h.step hs

theorem Sound.not_mayGo (h : s.Sound) (hx : x ∈ (s.exec .sweep).gens.flushed) : ¬(s.exec .sweep).MayGo x := by
  intro hm
  have hs := h.sweep
  have hnone : (s.exec .sweep).gens.nextRetirable = none := WalGenState.nextRetirable_sweepLoop le_rfl
  have hx := find?_eq_none.mp hnone x hx
  apply hx
  apply WalGenState.retirable_iff.mpr
  refine ⟨hm.unpinned, ?_, ?_⟩
  · intro t ht hp
    have := hm.decided t.pair (hs.tombs t ht).1 hp
    exact this.symm.imp_left (hs.tombs t ht).2.2.mpr
  · intro t ht hd
    have := hm.prepared t.pair (hs.tombs t ht).1 hd
    exact this.imp_right (hs.tombs t ht).2.1.mpr

-- The lowest generation left would have nothing to wait for.
theorem Sound.sweep_all (h : s.Sound) (hle : ∀ p ∈ s.pairs, p.prepareGen ≤ p.decisionGen) (hl : s.gens.live = [])
    (hf : ∀ p ∈ s.pairs, (p.prepareGen ∈ s.gens.flushed ∨ p.prepareGen ∈ s.gone) ∧
      (p.decisionGen ∈ s.gens.flushed ∨ p.decisionGen ∈ s.gone)) : (s.exec .sweep).gens.flushed = [] := by
  have hsw := s.gens.sweep_swept
  have hkept (x : Nat) (hx : x ∈ s.gens.flushed ∨ x ∈ s.gone) :
      x ∈ (s.exec .sweep).gens.flushed ∨ x ∈ (s.exec .sweep).gone := by
    by_cases hm : x ∈ s.gens.sweep.1
    case pos => exact .inr (mem_append_right _ hm)
    case neg => exact hx.imp (fun hx => (hsw.flushed x).mpr ⟨hx, hm⟩) (mem_append_left _)
  cases hm : (s.exec .sweep).gens.flushed.min? with
  | none => exact min?_eq_none_iff.mp hm
  | some x =>
    obtain ⟨hx, hmin⟩ := min?_eq_some_iff.mp hm
    refine absurd ?_ (h.not_mayGo hx)
    constructor
    case unpinned =>
      rw [show (s.exec .sweep).gens.live = [] from hsw.live.trans hl]
      exact not_mem_nil
    case decided => exact fun p hp _ => hkept _ (hf p hp).2
    case prepared =>
      rintro p hp rfl
      rcases hkept _ (hf p hp).1 with hf | hg
      · exact .inl (Nat.le_antisymm (hle p hp) (hmin _ hf))
      · exact .inr hg

-- In every run in which pairs are recorded in time: a sweep returns no generation with an unresolved prepare;
-- with a prepare's generation its decision's is flushed or gone; a decision's generation comes after its
-- prepare's or is the same; and nothing that is left may go. So if no decision is older than its prepare, and
-- all prepares are resolved and their generations flushed, nothing is left.
theorem sweep_exact (h : Reachable start TimelyStep s) :
    (∀ gen ∈ s.gens.sweep.1, gen ∈ s.gens.flushed ∧ gen ∉ s.gens.live) ∧
    (∀ p ∈ s.pairs, p.prepareGen ∈ s.gens.sweep.1 → p.decisionGen ∈ s.gens.flushed ∨ p.decisionGen ∈ s.gone) ∧
    (∀ p ∈ s.pairs, Before p.prepareGen p.decisionGen (s.gone ++ s.gens.sweep.1)) ∧
    (∀ gen ∈ (s.exec .sweep).gens.flushed, ¬(s.exec .sweep).MayGo gen) ∧
    ((∀ p ∈ s.pairs, p.prepareGen ≤ p.decisionGen) → s.gens.live = [] →
      (∀ p ∈ s.pairs, (p.prepareGen ∈ s.gens.flushed ∨ p.prepareGen ∈ s.gone) ∧
        (p.decisionGen ∈ s.gens.flushed ∨ p.decisionGen ∈ s.gone)) → (s.exec .sweep).gens.flushed = []) := by
  have hs := Sound.of_reachable h
  have hsw := s.gens.sweep_swept
  exact ⟨fun gen hg => ⟨hsw.sub hg, hsw.pinned gen hg⟩, fun p hp => hs.sweep_decided hp, hs.sweep.prepared,
    fun gen hg => hs.not_mayGo hg, hs.sweep_all⟩

-- A chain of pairs over generations: each decision is in the generation of the next prepare.
def chain : List (GenOp Nat) :=
  [.pin 0, .resolved ⟨7, 0, 1⟩, .pin 1, .markFlushed 0, .resolved ⟨8, 1, 2⟩, .markFlushed 2, .sweep, .markFlushed 1]

theorem sweep_exact_chain : (chain.foldl exec start).gens.sweep.1 = [0, 1, 2] ∧
    ((chain.foldl exec start).exec .sweep).gens.flushed = [] := by
  have h : Reachable (start : Sweeps Nat) TimelyStep (chain.foldl exec start) :=
    Reachable.start.foldl (P := fun s op => s.Enabled op ∧ s.Timely op) (fun _ op h => ⟨op, h.1, h.2, rfl⟩)
      (by decide)
  exact ⟨by decide, (sweep_exact h).2.2.2.2 (by decide) (by decide) (by decide)⟩

-- The decision's generation is returned before the pair is recorded; the prepare's is then withheld for ever,
-- although its prepare is resolved and the decision is gone.
def late : List (GenOp Nat) :=
  [.pin 0, .markFlushed 1, .sweep, .resolved ⟨7, 0, 1⟩, .markFlushed 0]

theorem sweep_withholds : Allowed exec (fun s op => s.Enabled op) (start : Sweeps Nat) late ∧
    (late.foldl exec start).gone = [1] ∧ (late.foldl exec start).gens.sweep.1 = [] ∧
    0 ∈ ((late.foldl exec start).exec .sweep).gens.flushed ∧ ((late.foldl exec start).exec .sweep).MayGo 0 := by
  refine ⟨by decide, by decide, by decide, by decide, by decide, by decide, by decide⟩

end Sweeps

end OndaDb.Prepared

import OndaDb.Publish.Theorems.Visible

-- The pins of live snapshots, beside the publication of sequences, and the floors of collection.
namespace OndaDb.Publish

-- How many pins there are at each sequence.
abbrev Snapshots := Map Nat Nat

namespace Snapshots

def acquire (m : Snapshots) (seq : Nat) : Snapshots :=
  m.insert seq ((m.lookup seq).getD 0 + 1)

def release (m : Snapshots) (seq : Nat) : Snapshots :=
  match m.lookup seq with
  | none => m
  | some c => if c - 1 = 0 then m.erase seq else m.insert seq (c - 1)

def oldest (m : Snapshots) (visible : Nat) : Nat :=
  m.keys.min?.getD visible

-- The map has `n q` pins at each sequence `q`.
def Counts (m : Snapshots) (n : Nat → Nat) : Prop :=
  ∀ q, m.lookup q = if n q = 0 then none else some (n q)

variable {m : Snapshots} {n : Nat → Nat}

theorem Counts.acquire (h : m.Counts n) (seq : Nat) :
    (m.acquire seq).Counts fun q => n q + if q = seq then 1 else 0 := by
  intro q
  rw [Snapshots.acquire, Map.lookup_insert_eq]
  by_cases hq : q = seq
  case pos =>
    subst hq
    have hn : (m.lookup q).getD 0 = n q := by
      rw [h q]
      split
      case isTrue hz => exact hz.symm
      case isFalse => rfl
    simp [hn]
  case neg => simp [hq, h q]

theorem Counts.release (h : m.Counts n) (seq : Nat) :
    (m.release seq).Counts fun q => n q - if q = seq then 1 else 0 := by
  intro q
  have hs := h seq
  by_cases hn : n seq = 0
  case pos =>
    rw [if_pos hn] at hs
    rw [Snapshots.release, hs, h q]
    by_cases hq : q = seq
    · simp [hq, hn]
    · simp [hq]
  case neg =>
    rw [if_neg hn] at hs
    simp only [Snapshots.release, hs]
    by_cases hq : q = seq
    case pos =>
      subst hq
      split <;> simp [*]
    case neg => split <;> simp [hq, h q]

theorem Counts.mem_keys (h : m.Counts n) : q ∈ m.keys ↔ n q ≠ 0 := by
  have hm : q ∈ m.keys ↔ (m.lookup q).isSome := AList.lookup_isSome.symm
  rw [hm, h q]
  split <;> simp_all

theorem Counts.oldest (h : m.Counts n) (visible : Nat) :
    (n (m.oldest visible) ≠ 0 ∧ ∀ q, n q ≠ 0 → m.oldest visible ≤ q) ∨
      m.oldest visible = visible ∧ ∀ q, n q = 0 := by
  rw [Snapshots.oldest]
  cases hmin : m.keys.min?
  case none =>
    have hnil : m.keys = [] := List.min?_eq_none_iff.mp hmin
    exact .inr ⟨rfl, fun q => by simpa [hnil] using h.mem_keys (q := q)⟩
  case some a =>
    obtain ⟨ha, hle⟩ := List.min?_eq_some_iff.mp hmin
    exact .inl ⟨h.mem_keys.mp ha, fun q hq => hle q (h.mem_keys.mpr hq)⟩

end Snapshots

-- A pin and the handles that share it; the last one to go releases it.
structure Pin where
  seq : Nat
  handles : Nat
  deriving DecidableEq

-- What `oldest_snapshot` has answered so far is kept: a compaction may still collect below it.
structure Database where
  system : System
  snapshots : Snapshots
  live : List Pin
  floors : List Nat

namespace Database

def ofManifest (globalSeq : Nat) : Database where
  system := .ofManifest globalSeq
  snapshots := ∅
  live := []
  floors := []

inductive Action
  | sequences (e : Event)
  | acquire
  | clone (p : Pin)
  | drop (p : Pin)
  | oldest

-- `acquire_visible_snapshot` and `oldest_snapshot` read the visible sequence under the lock of the map.
def exec (s : Database) : Action → Database
  | .sequences e => { s with system := s.system.exec e }
  | .acquire =>
    { s with
      snapshots := s.snapshots.acquire s.system.visibleSeq
      live := ⟨s.system.visibleSeq, 1⟩ :: s.live }
  | .clone p => { s with live := ⟨p.seq, p.handles + 1⟩ :: s.live.erase p }
  | .drop p =>
    if p.handles = 1
    then { s with snapshots := s.snapshots.release p.seq, live := s.live.erase p }
    else { s with live := ⟨p.seq, p.handles - 1⟩ :: s.live.erase p }
  | .oldest => { s with floors := s.snapshots.oldest s.system.visibleSeq :: s.floors }

def Enabled (s : Database) : Action → Prop
  | .sequences e => s.system.Enabled e
  | .clone p | .drop p => p ∈ s.live
  | .acquire | .oldest => True

instance (s : Database) : (a : Action) → Decidable (s.Enabled a)
  | .sequences e => inferInstanceAs (Decidable (s.system.Enabled e))
  | .clone p | .drop p => inferInstanceAs (Decidable (p ∈ s.live))
  | .acquire | .oldest => inferInstanceAs (Decidable True)

def Step (s s' : Database) : Prop :=
  ∃ a, s.Enabled a ∧ s' = s.exec a

def pinsAt (s : Database) (q : Nat) : Nat :=
  (s.live.map Pin.seq).count q

structure Guarded (s : Database) : Prop where
  counted : s.system.Counted
  counts : s.snapshots.Counts s.pinsAt
  pinned : ∀ p ∈ s.live, p.seq ≤ s.system.visibleSeq
  passed : ∀ f ∈ s.floors, f ≤ s.system.visibleSeq
  floors : ∀ f ∈ s.floors, ∀ p ∈ s.live, f ≤ p.seq

namespace Guarded

variable {s : Database} {p : Pin}

theorem ofManifest (globalSeq : Nat) : (Database.ofManifest globalSeq).Guarded where
  counted := .ofManifest _
  counts := by
    intro q
    simp [Database.ofManifest, pinsAt]
  pinned := by simp [Database.ofManifest]
  passed := by simp [Database.ofManifest]
  floors := by simp [Database.ofManifest]

-- Another number of handles changes no pin.
theorem share (h : s.Guarded) (hp : p ∈ s.live) (n : Nat) :
    Guarded { s with live := ⟨p.seq, n⟩ :: s.live.erase p } where
  __ := h
  counts := by
    have hperm := (List.perm_cons_erase hp).map Pin.seq
    intro q
    have hc := h.counts q
    rw [pinsAt, hperm.count_eq] at hc
    exact hc
  pinned := List.forall_mem_cons.mpr ⟨h.pinned p hp, fun p' hp' => h.pinned p' (List.mem_of_mem_erase hp')⟩
  floors := fun f hf =>
    List.forall_mem_cons.mpr ⟨h.floors f hf p hp, fun p' hp' => h.floors f hf p' (List.mem_of_mem_erase hp')⟩

theorem release (h : s.Guarded) (hp : p ∈ s.live) :
    Guarded { s with snapshots := s.snapshots.release p.seq, live := s.live.erase p } where
  __ := h
  counts := by
    have hperm := (List.perm_cons_erase hp).map Pin.seq
    have hn : (fun q => s.pinsAt q - if q = p.seq then 1 else 0) = fun q => ((s.live.erase p).map Pin.seq).count q := by
      funext q
      simp [pinsAt, hperm.count_eq, List.count_cons, eq_comm (a := q)]
    have hc := h.counts.release p.seq
    rw [hn] at hc
    exact hc
  pinned := fun p' hp' => h.pinned p' (List.mem_of_mem_erase hp')
  floors := fun f hf p' hp' => h.floors f hf p' (List.mem_of_mem_erase hp')

theorem acquire (h : s.Guarded) : (s.exec .acquire).Guarded where
  __ := h
  counts := by
    intro q
    have hc := h.counts.acquire s.system.visibleSeq q
    simpa [exec, pinsAt, List.count_cons, eq_comm (a := q)] using hc
  pinned := List.forall_mem_cons.mpr ⟨le_rfl, h.pinned⟩
  floors := fun f hf => List.forall_mem_cons.mpr ⟨h.passed f hf, h.floors f hf⟩

theorem mem_live (hq : s.pinsAt q ≠ 0) : ∃ p ∈ s.live, p.seq = q :=
  List.mem_map.mp (List.count_pos_iff.mp (Nat.pos_of_ne_zero hq))

theorem pinsAt_ne (hp : p ∈ s.live) : s.pinsAt p.seq ≠ 0 :=
  (List.count_pos_iff.mpr (List.mem_map_of_mem hp)).ne'

theorem oldest (h : s.Guarded) : (s.exec .oldest).Guarded := by
  refine { h with passed := List.forall_mem_cons.mpr ⟨?_, h.passed⟩, floors := List.forall_mem_cons.mpr ⟨?_, h.floors⟩ }
  case refine_1 =>
    obtain ⟨hn, _⟩ | ⟨he, _⟩ := h.counts.oldest s.system.visibleSeq
    · obtain ⟨p, hp, he⟩ := mem_live hn
      exact he ▸ h.pinned p hp
    · exact he.le
  case refine_2 =>
    intro p hp
    obtain ⟨_, hle⟩ | ⟨_, hnone⟩ := h.counts.oldest s.system.visibleSeq
    · exact hle p.seq (pinsAt_ne hp)
    · exact absurd (hnone p.seq) (pinsAt_ne hp)

theorem sequences (h : s.Guarded) (he : s.system.Enabled e) : (s.exec (.sequences e)).Guarded where
  counted := h.counted.exec he
  __ := h
  pinned := fun p hp => (h.pinned p hp).trans (h.counted.visibleSeq_le_exec he)
  passed := fun f hf => (h.passed f hf).trans (h.counted.visibleSeq_le_exec he)

theorem exec (h : s.Guarded) (ha : s.Enabled a) : (s.exec a).Guarded := by
  cases a
  case sequences e => exact h.sequences ha
  case acquire => exact h.acquire
  case clone p => exact h.share ha _
  case oldest => exact h.oldest
  case drop p =>
    rw [Database.exec]
    split
    · exact h.release ha
    · exact h.share ha _

theorem of_reachable (h : Reachable (Database.ofManifest globalSeq) Step s) : s.Guarded := by
  refine h.invariant (.ofManifest _) ?_
  rintro s _ ⟨a, ha, rfl⟩ hs
  exact hs.exec ha

end Guarded

-- Whatever is committed, pinned and released meanwhile, no floor that a collection has taken passes a
-- live snapshot, taken before or after it. The next floor is the oldest live snapshot, if there is one.
theorem floors_spare_snapshots (globalSeq : Nat) {s : Database} (h : Reachable (ofManifest globalSeq) Step s) :
    (∀ f ∈ s.floors, ∀ p ∈ s.live, f ≤ p.seq) ∧
    (∀ q, s.snapshots.lookup q = if s.pinsAt q = 0 then none else some (s.pinsAt q)) ∧
    (∀ p ∈ s.live, s.snapshots.oldest s.system.visibleSeq ≤ p.seq) ∧
    (s.snapshots.oldest s.system.visibleSeq ∈ s.live.map Pin.seq ∨
      s.live = [] ∧ s.snapshots.oldest s.system.visibleSeq = s.system.visibleSeq) := by
  have hg := Guarded.of_reachable h
  refine ⟨hg.floors, hg.counts, fun p hp => ?_, ?_⟩
  · exact hg.oldest.floors _ (List.mem_cons_self ..) p hp
  · obtain ⟨hn, _⟩ | ⟨he, hnone⟩ := hg.counts.oldest s.system.visibleSeq
    · exact .inl (List.count_pos_iff.mp (Nat.pos_of_ne_zero hn))
    · exact .inr ⟨List.eq_nil_iff_forall_not_mem.mpr fun p hp => Guarded.pinsAt_ne hp (hnone p.seq), he⟩

-- A floor is taken under the older of two snapshots, which is then dropped; another one stays shared.
def twoReaders : List Action :=
  [.acquire, .sequences (.reserve 1), .sequences (.applyErr ⟨1, 2⟩), .sequences (.publish ⟨1, 2⟩), .acquire,
    .clone ⟨1, 1⟩, .oldest, .drop ⟨0, 1⟩, .drop ⟨1, 2⟩, .oldest]

theorem floors_spare_snapshots_twoReaders :
    let s := twoReaders.foldl Database.exec (ofManifest 0)
    s.floors = [1, 0] ∧ s.live = [⟨1, 1⟩] ∧ ∀ f ∈ s.floors, ∀ p ∈ s.live, f ≤ p.seq := by
  refine ⟨by decide +kernel, by decide +kernel, ?_⟩
  refine (floors_spare_snapshots 0 ?_).left
  exact Reachable.start.foldl (P := Enabled) (fun _ a ha => ⟨a, ha, rfl⟩) (by decide +kernel)

end Database

end OndaDb.Publish

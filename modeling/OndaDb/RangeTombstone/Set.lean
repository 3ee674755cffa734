import OndaDb.RangeTombstone.Theorems.Exact

-- The range tombstones of a memtable while deletes, flushes and snapshots take turns.
namespace OndaDb.RangeTombstoneSet

open List

variable {K : Type} [LinearOrder K]

-- A set as readers share it: the count they look at first, and the fragments built last.
structure Shared (K : Type) where
  inner : RangeTombstoneSet K
  len : Nat
  cache : Option (List (Fragment K))
  retired : Bool
  deriving DecidableEq, Repr

namespace Shared

def new : Shared K where
  inner := empty
  len := 0
  cache := none
  retired := false

def add (t : Shared K) (start stop : K) (seq : Nat) : Shared K :=
  { t with inner := t.inner.add start stop seq, cache := none, len := t.len + 1 }

def coveringSeq (t : Shared K) (key : K) (readSeq : Nat) : Option Nat :=
  if t.len = 0 then none else t.inner.coveringSeq key readSeq

def fragments (t : Shared K) (lower upper : Option K) : List (Fragment K) :=
  if t.len = 0 then [] else t.inner.fragments lower upper

def retire (t : Shared K) : Shared K :=
  { t with retired := true, cache := none }

def fragmentSnapshot (t : Shared K) : List (Fragment K) × Shared K :=
  match t.cache with
  | some frags => (frags, t)
  | none =>
    let frags := fragmentSpans t.inner.spans none none
    (frags, { t with cache := some frags })

inductive Op (K : Type)
  | add (start stop : K) (seq : Nat)
  | retire
  | fragmentSnapshot

def exec (t : Shared K) : Op K → Shared K
  | .add start stop seq => t.add start stop seq
  | .retire => t.retire
  | .fragmentSnapshot => t.fragmentSnapshot.2

-- Nothing but the end of the memtable takes a delete out of the set.
def live (ops : List (Op K)) : List (Span K) :=
  ops.filterMap fun
    | .add start stop seq => some ⟨start, stop, seq⟩
    | _ => none

end Shared

variable {spans : List (Span K)}

theorem runningMax_cons (running : Option K) (s : Span K) (spans : List (Span K)) :
    runningMax running (s :: spans) =
      running.elim s.stop (max s.stop) :: runningMax (some (running.elim s.stop (max s.stop))) spans := by
  cases running
  case none => rfl
  case some m => rw [Option.elim_some, max_def, runningMax.eq_def]

theorem length_runningMax (running : Option K) (spans : List (Span K)) :
    (runningMax running spans).length = spans.length := by
  induction spans generalizing running
  case nil => cases running <;> rfl
  case cons s spans hi => rw [runningMax_cons, length_cons, hi, length_cons]

theorem runningMax_append (running : Option K) (xs ys : List (Span K)) : runningMax running (xs ++ ys) =
    runningMax running xs ++ runningMax ((runningMax running xs).getLast?.or running) ys := by
  induction xs generalizing running
  case nil => cases running <;> simp [runningMax]
  case cons s xs hi =>
    rw [cons_append, runningMax_cons, runningMax_cons, hi, cons_append, getLast?_cons,
      Option.some_or, Option.or_some]

theorem le_runningMax (h : (runningMax running spans)[i]? = some m) :
    (∀ n ∈ running, n ≤ m) ∧ ∀ s ∈ spans.take (i + 1), s.stop ≤ m := by
  induction spans generalizing running i
  case nil => cases running <;> cases h
  case cons s spans hi =>
    rw [runningMax_cons] at h
    -- The maximum at the first span is at least what was carried over and the end of the span.
    have hfirst : (∀ n ∈ running, n ≤ running.elim s.stop (max s.stop)) ∧ s.stop ≤ running.elim s.stop (max s.stop) := by
      cases running <;> simp
    cases i
    case zero =>
      cases h
      simpa using hfirst
    case succ i =>
      obtain ⟨hm, hs⟩ := hi h
      have hle := hm _ rfl
      refine ⟨fun n hn => (hfirst.1 n hn).trans hle, fun t ht => ?_⟩
      obtain rfl | ht := mem_cons.mp (take_succ_cons ▸ ht)
      case inl => exact hfirst.2.trans hle
      case inr => exact hs t ht

structure Ordered (t : RangeTombstoneSet K) : Prop where
  sorted : t.spans.Pairwise (·.start ≤ ·.start)
  maxima : t.prefixMaxEnd = runningMax none t.spans

variable {t : RangeTombstoneSet K}

theorem Ordered.split (h : t.Ordered) (key : K) :
    ∃ xs ys, t.spans = xs ++ ys ∧ t.spans.partitionPoint (fun s => s.start ≤ key) = xs.length ∧
      (∀ s ∈ xs, s.start ≤ key) ∧ ∀ s ∈ ys, key < s.start := by
  let p (s : Span K) : Bool := s.start ≤ key
  have hmono : t.spans.Pairwise fun a b => p b → p a := h.sorted.imp fun hab hb =>
    decide_eq_true (hab.trans (of_decide_eq_true hb))
  refine ⟨t.spans.takeWhile p, t.spans.dropWhile p, takeWhile_append_dropWhile.symm, rfl, fun s hs => ?_,
    fun s hs => ?_⟩
  case refine_1 =>
    have hp : p s := mem_takeWhile_imp hs
    exact of_decide_eq_true hp
  case refine_2 =>
    rw [dropWhile_eq_filter_not hmono] at hs
    simpa [p] using (mem_filter.mp hs).2

theorem insertIdx_append (xs ys : List α) (a : α) : (xs ++ ys).insertIdx xs.length a = xs ++ a :: ys := by
  induction xs
  case nil => rfl
  case cons x xs hi => exact congrArg (x :: ·) hi

theorem Ordered.add (h : t.Ordered) (start stop : K) (seq : Nat) :
    (t.add start stop seq).Ordered ∧ (t.add start stop seq).spans.Perm (⟨start, stop, seq⟩ :: t.spans) := by
  obtain ⟨xs, ys, hspans, hat, hx, hy⟩ := h.split start
  have hinsert : (t.add start stop seq).spans = xs ++ ⟨start, stop, seq⟩ :: ys := by
    dsimp only [RangeTombstoneSet.add]
    rw [hat, hspans]
    exact insertIdx_append xs ys _
  have hkept : t.prefixMaxEnd.take xs.length = runningMax none xs := by
    rw [h.maxima, hspans, runningMax_append, take_left' (length_runningMax none xs)]
  refine ⟨⟨?_, ?_⟩, hinsert ▸ hspans ▸ perm_middle⟩
  case refine_1 =>
    obtain ⟨hxs, hys, hxy⟩ := pairwise_append.mp (hspans ▸ h.sorted)
    rw [hinsert]
    refine pairwise_append.mpr ⟨hxs, pairwise_cons.mpr ⟨fun s hs => (hy s hs).le, hys⟩, fun a ha b hb => ?_⟩
    obtain rfl | hb := mem_cons.mp hb
    case inl => exact hx a ha
    case inr => exact hxy a ha b hb
  case refine_2 =>
    have hdrop : (t.add start stop seq).prefixMaxEnd =
        runningMax none xs ++ runningMax (runningMax none xs).getLast? ((t.add start stop seq).spans.drop xs.length) := by
      rw [← hkept, ← hat]
      rfl
    rw [hdrop, hinsert, drop_left, runningMax_append, Option.or_none]

theorem Ordered.scan_newest (h : t.Ordered) (hstart : ∀ s ∈ t.spans.take i, s.start ≤ key) (hi : i ≤ t.spans.length)
    (hb : Newest P r best) :
    Newest (fun n => P n ∨ RangeDeleted (t.spans.take i) key n) r (t.scan key r best i) := by
  induction i generalizing best P
  case zero => exact hb.congr_of_le fun n _ => by simp [RangeDeleted]
  case succ i ih =>
    have hlt : i < t.prefixMaxEnd.length := by rw [h.maxima, length_runningMax]; exact hi
    have hm := getElem?_eq_getElem hlt
    have hs := getElem?_eq_getElem hi
    have htake := take_append_getElem hi
    generalize t.prefixMaxEnd[i] = m at hm
    generalize t.spans[i] = s at hs htake
    rw [scan, hm, hs]
    dsimp only
    have hle := (le_runningMax (h.maxima ▸ hm)).2
    rw [← htake] at hle hstart ⊢
    have hadd : ∀ n, RangeDeleted (t.spans.take i ++ [s]) key n ↔
        RangeDeleted (t.spans.take i) key n ∨ s.Contains key ∧ s.seq = n := fun n => by
      simp [RangeDeleted, or_and_right, exists_or]
    split
    case isTrue hk =>
      -- No span so far ends above the key.
      refine hb.congr_of_le fun n _ => (or_iff_left ?_).symm
      rintro ⟨sp, hsp, hc, -⟩
      exact absurd hc.2 (not_lt.mpr ((hle sp hsp).trans hk))
    have hstart' := fun s hs => hstart s (mem_append_left _ hs)
    have hs : s.start ≤ key := hstart s (by simp)
    split
    case isTrue hc =>
      refine (ih hstart' (Nat.le_of_succ_le hi) (hb.newer hc.1)).congr_of_le fun n _ => ?_
      rw [hadd, or_assoc, or_comm (a := n = s.seq)]
      simp [Span.Contains, hs, hc.2, eq_comm]
    case isFalse hc =>
      refine (ih hstart' (Nat.le_of_succ_le hi) hb).congr_of_le fun n hn => ?_
      rw [hadd, or_iff_left (b := s.Contains key ∧ s.seq = n)]
      rintro ⟨hck, rfl⟩
      exact hc ⟨hn, hck.2⟩

theorem Ordered.coveringSeq_eq (h : t.Ordered) (key : K) (r : Nat) :
    t.coveringSeq key r = newestSpan t.spans key r := by
  obtain ⟨xs, ys, hspans, hat, hx, hy⟩ := h.split key
  have htake : t.spans.take xs.length = xs := hspans ▸ take_left
  have hnone : Newest (fun _ => False) r none := fun _ _ => id
  have hn := h.scan_newest (htake.symm ▸ hx) (hspans ▸ length_append ▸ Nat.le_add_right ..) hnone
  rw [coveringSeq, hat]
  refine hn.unique (newestSpan_newest.congr_of_le fun n _ => ?_)
  -- What starts behind the key does not contain it.
  rw [false_or, htake, hspans]
  constructor
  case mp =>
    rintro ⟨s, hs, hc, rfl⟩
    exact ⟨s, (mem_append.mp hs).resolve_right fun hs => absurd hc.1 (not_le.mpr (hy s hs)), hc, rfl⟩
  case mpr =>
    rintro ⟨s, hs, hc, rfl⟩
    exact ⟨s, mem_append_left _ hs, hc, rfl⟩

namespace Shared

structure Tracks (t : Shared K) (spans : List (Span K)) : Prop where
  ordered : t.inner.Ordered
  perm : t.inner.spans.Perm spans
  len : t.len = t.inner.spans.length
  cache : ∀ frags ∈ t.cache, frags = fragmentSpans t.inner.spans none none

variable {t : Shared K}

theorem tracks_new : Tracks (new : Shared K) [] where
  ordered := ⟨.nil, rfl⟩
  perm := .nil
  len := rfl
  cache := nofun

theorem Tracks.exec (h : t.Tracks spans) (op : Op K) : (t.exec op).Tracks (spans ++ live [op]) := by
  cases op
  case add start stop seq =>
    obtain ⟨ho, hp⟩ := h.ordered.add start stop seq
    refine ⟨ho, hp.trans ((h.perm.cons _).trans (perm_append_singleton ..).symm), ?_, nofun⟩
    exact (congrArg (· + 1) h.len).trans hp.length_eq.symm
  case retire => exact { h with perm := (append_nil spans).symm ▸ h.perm, cache := nofun }
  case fragmentSnapshot =>
    rw [show live [Op.fragmentSnapshot (K := K)] = [] from rfl, append_nil]
    rw [Shared.exec, fragmentSnapshot]
    split
    case h_1 => exact h
    case h_2 => exact { h with cache := fun _ hf => (Option.some.inj hf).symm }

theorem tracks_run (ops : List (Op K)) : Tracks (ops.foldl exec new) (live ops) := by
  induction ops using reverseRecOn
  case nil => exact tracks_new
  case append_singleton ops op ih => 
    have := ih.exec op
    rw [foldl_concat, live, filterMap_append]
    exact this

theorem newestSpan_perm (h : spans.Perm spans') (k : K) (r : Nat) : newestSpan spans k r = newestSpan spans' k r :=
  newestSpan_newest.unique (newestSpan_newest.congr_of_le fun n _ => by simp [RangeDeleted, h.mem_iff])

theorem Tracks.fragmentSnapshot_eq (h : t.Tracks spans) : t.fragmentSnapshot.1 = fragmentSpans t.inner.spans none none := by
  rw [fragmentSnapshot]
  split
  case h_1 hc => exact h.cache _ hc
  case h_2 => rfl

/-- Deletes, flushes and snapshots in any order: a lookup gives the newest visible delete over its key, and so does a
snapshot. -/
theorem coveringSeq_exact (ops : List (Op K)) (key : K) (readSeq : Nat) :
    let t := ops.foldl exec new
    t.coveringSeq key readSeq = newestSpan (live ops) key readSeq ∧
      coveringSeqIn t.fragmentSnapshot.1 key readSeq = newestSpan (live ops) key readSeq := by
  intro t
  have h : t.Tracks (live ops) := tracks_run ops
  rw [h.fragmentSnapshot_eq, ← newestSpan_perm h.perm]
  refine ⟨?_, coveringSeqIn_fragmentSpans ⟨nofun, nofun⟩⟩
  rw [coveringSeq]
  split
  case isTrue hl => rw [length_eq_zero_iff.mp (h.len.symm.trans hl)]; rfl
  case isFalse => exact h.ordered.coveringSeq_eq key readSeq

-- A delete that starts first comes in last, between a snapshot and a flush.
example : ([.add 4 9 8, .fragmentSnapshot, .add 2 6 5, .retire].foldl exec new : Shared Nat).coveringSeq 5 6 = some 5 := by
  decide

end Shared

end OndaDb.RangeTombstoneSet

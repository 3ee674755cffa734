import OndaDb.Lib.Run
import OndaDb.TxnLock.Basic
import Mathlib.Tactic

namespace OndaDb.TxnLock

namespace Table

variable {t t' : Table} {H H' : Nat → List LockKey} {k : LockKey}

def Owns (t : Table) (txnId : Nat) (k : LockKey) : Prop :=
  ∃ e, t.entries.lookup k = some e ∧ e.owner = txnId

theorem Owns.unique (h₁ : t.Owns txn₁ k) (h₂ : t.Owns txn₂ k) : txn₁ = txn₂ := by
  obtain ⟨e₁, he₁, rfl⟩ := h₁
  obtain ⟨e₂, he₂, rfl⟩ := h₂
  rw [Option.some.inj (he₁.symm.trans he₂)]

structure Consistent (t : Table) (H : Nat → List LockKey) : Prop where
  older : ∀ k e, t.entries.lookup k = some e → ∀ w ∈ e.waiters, w.txnId ≠ noOwner ∧ w.txnId < e.owner
  nodup : ∀ txnId, (H txnId).Nodup
  held : ∀ txnId k, k ∈ H txnId ↔ txnId ≠ noOwner ∧ t.Owns txnId k

def Safe (t : Table) : Prop :=
  t.Consistent t.heldBy

namespace Consistent

theorem update (h : t.Consistent H)
    (hoff : ∀ k' ≠ k, t'.entries.lookup k' = t.entries.lookup k')
    (hold : ∀ e, t'.entries.lookup k = some e → ∀ w ∈ e.waiters, w.txnId ≠ noOwner ∧ w.txnId < e.owner)
    (hk : ∀ txnId, k ∈ H' txnId ↔ txnId ≠ noOwner ∧ t'.Owns txnId k)
    (hH : ∀ txnId, ∀ k' ≠ k, k' ∈ H' txnId ↔ k' ∈ H txnId)
    (hn : ∀ txnId, (H' txnId).Nodup) : t'.Consistent H' where
  older k' e he := by
    by_cases hkk : k' = k
    case pos => exact hold e (hkk ▸ he)
    case neg => exact h.older k' e (hoff k' hkk ▸ he)
  nodup := hn
  held txnId k' := by
    by_cases hkk : k' = k
    case pos => exact hkk ▸ hk txnId
    case neg => rw [hH txnId k' hkk, h.held, Owns, Owns, hoff k' hkk]

theorem congr (h : t.Consistent H) (he : t'.entries = t.entries) (hH : ∀ txnId, H' txnId = H txnId) :
    t'.Consistent H' := by
  obtain rfl : H' = H := funext hH
  refine ⟨fun k e hk => h.older k e (he ▸ hk), h.nodup, fun txnId k => ?_⟩
  rw [h.held, Owns, Owns, he]

theorem not_mem (h : t.Consistent H) (hn : ∀ e, t.entries.lookup k = some e → e.owner = noOwner) :
    k ∉ H txnId := by
  intro hk
  obtain ⟨hne, e, he, rfl⟩ := (h.held txnId k).mp hk
  exact hne (hn e he)

theorem waiters_eq_nil (h : t.Consistent H) (he : t.entries.lookup k = some e)
    (ho : e.owner = noOwner) : e.waiters = [] := by
  refine List.eq_nil_iff_forall_not_mem.mpr fun w hw => ?_
  have := (h.older k e he w hw).right
  rw [ho] at this
  exact Nat.not_lt_zero _ this

end Consistent

@[simp]
theorem entries_pushHeld : (t.pushHeld txnId k).entries = t.entries := rfl

@[simp]
theorem entries_setCells : (t.setCells ws state).entries = t.entries := rfl

@[simp]
theorem heldBy_setCells : (t.setCells ws state).heldBy txnId = t.heldBy txnId := rfl

theorem heldBy_pushHeld :
    (t.pushHeld txnId k).heldBy txnId' =
      if txnId' = txnId then t.heldBy txnId ++ [k] else t.heldBy txnId' := by
  unfold pushHeld heldBy
  rw [Map.lookup_insert_eq]
  split <;> rfl

theorem Consistent.grant (h : t.Consistent H) (hne : txnId ≠ noOwner)
    (hfree : ∀ e, t.entries.lookup k = some e → e.owner = noOwner)
    (hoff : ∀ k' ≠ k, t'.entries.lookup k' = t.entries.lookup k')
    (hon : ∃ e, t'.entries.lookup k = some e ∧ e.owner = txnId ∧ e.waiters = []) :
    t'.Consistent fun txn => if txn = txnId then H txnId ++ [k] else H txn := by
  obtain ⟨e, he, ho, hw⟩ := hon
  refine h.update hoff (fun e' he' => ?_) (fun txn => ?_) (fun txn k' hk' => ?_) fun txn => ?_
  · rw [Option.some.inj (he'.symm.trans he), hw]
    simp
  · have howns : t'.Owns txn k ↔ txn = txnId := by
      refine ⟨fun h => h.unique ⟨e, he, ho⟩, fun h => h ▸ ⟨e, he, ho⟩⟩
    rw [howns]
    by_cases htxn : txn = txnId
    case pos => simpa [htxn] using hne
    case neg => simpa [htxn] using h.not_mem hfree
  · by_cases htxn : txn = txnId
    case pos => simp [htxn, hk']
    case neg => simp [htxn]
  · by_cases htxn : txn = txnId
    case pos =>
      simp only [htxn, if_true]
      exact (h.nodup txnId).append (List.nodup_singleton k)
        (List.disjoint_singleton.mpr (h.not_mem hfree))
    case neg => simpa [htxn] using h.nodup txn

theorem Safe.acquire (h : t.Safe) (hne : txnId ≠ noOwner) : (t.acquire txnId cfId key).1.Safe := by
  unfold Table.acquire
  split
  case h_1 => exact h
  case h_2 =>
    simp only
    split
    case h_1 hnone =>
      refine (Consistent.grant (k := (cfId, key)) h hne (by simp [hnone]) (fun k' hk' => ?_) ?_).congr
        rfl fun txn => heldBy_pushHeld
      · exact AList.lookup_insert_ne hk'
      · exact ⟨_, AList.lookup_insert _, rfl, rfl⟩
    case h_2 e he =>
      split
      case isTrue => exact h
      case isFalse howner =>
        split
        case isTrue hfree =>
          have hw := h.waiters_eq_nil he hfree
          refine (Consistent.grant (k := (cfId, key)) h hne (by simp [he, hfree]) (fun k' hk' => ?_)
            ?_).congr rfl fun txn => heldBy_pushHeld
          · exact AList.lookup_insert_ne hk'
          · exact ⟨_, AList.lookup_insert _, rfl, hw⟩
        split
        case isTrue => exact h
        case isFalse hlt =>
          -- The requester is older than the owner: it queues.
          refine Consistent.update (k := (cfId, key)) h (fun k' hk' => AList.lookup_insert_ne hk') ?_
            (fun txn => ?_) (fun _ _ _ => Iff.rfl) h.nodup
          · intro e' he' w hw
            cases Option.some.inj ((AList.lookup_insert _).symm.trans he')
            rcases List.mem_append.mp hw with hw | hw
            · exact h.older _ e he w hw
            · cases List.mem_singleton.mp hw
              exact ⟨hne, by simp only; omega⟩
          · refine (h.held txn (cfId, key)).trans (and_congr_right fun _ => ?_)
            simp [Owns, he]

-- What is left of a release: the transaction is gone from the table's own record, and it still owns
-- the keys that the loop has not reached.
structure Releasing (t : Table) (txnId : Nat) (keys : List LockKey) : Prop where
  consistent : t.Consistent fun txn => if txn = txnId then keys else t.heldBy txn
  gone : t.heldBy txnId = []

namespace Releasing

theorem first (h : t.Safe) (hk : t.held.lookup txnId = some keys) :
    Releasing { t with held := t.held.erase txnId } txnId keys where
  consistent := by
    refine h.congr rfl fun txn => ?_
    by_cases htxn : txn = txnId
    case pos => subst htxn; simp [heldBy, hk]
    case neg => simp [htxn, heldBy, AList.lookup_erase_ne htxn]
  gone := by simp [heldBy]

theorem last (h : Releasing t txnId []) : t.Safe := by
  refine h.consistent.congr rfl fun txn => ?_
  split
  case isTrue htxn => exact htxn ▸ h.gone
  case isFalse => rfl

theorem not_owns (h : Releasing t txnId []) (hne : txnId ≠ noOwner) : ¬t.Owns txnId k := by
  intro ho
  simpa using (h.consistent.held txnId k).mpr ⟨hne, ho⟩

theorem owner (h : Releasing t txnId (k :: keys)) :
    txnId ≠ noOwner ∧ ∃ e, t.entries.lookup k = some e ∧ e.owner = txnId :=
  (h.consistent.held txnId k).mp (by simp)

theorem pass (next : Option Nat) (h : Releasing t txnId (k :: keys))
    (hoff : ∀ k' ≠ k, t'.entries.lookup k' = t.entries.lookup k')
    (hold : ∀ e, t'.entries.lookup k = some e → ∀ w ∈ e.waiters, w.txnId ≠ noOwner ∧ w.txnId < e.owner)
    (hown : ∀ txn, txn ≠ noOwner ∧ t'.Owns txn k ↔ next = some txn)
    (hheld : ∀ txn, t'.heldBy txn = if next = some txn then t.heldBy txn ++ [k] else t.heldBy txn)
    (hnext : next ≠ some txnId) : Releasing t' txnId keys := by
  obtain ⟨hne, e, he, howner⟩ := h.owner
  have hnd : (k :: keys).Nodup := by simpa using h.consistent.nodup txnId
  have hfree : ∀ txn, txn ≠ txnId → k ∉ t.heldBy txn := by
    intro txn htxn hk
    have ho := (h.consistent.held txn k).mp (by simpa [htxn] using hk) |>.right
    exact htxn (ho.unique ⟨e, he, howner⟩)
  have hnodup : ∀ txn, txn ≠ txnId → (t.heldBy txn).Nodup := fun txn htxn => by
    simpa [htxn] using h.consistent.nodup txn
  constructor
  case gone => rw [hheld, if_neg hnext, h.gone]
  case consistent =>
    refine h.consistent.update hoff hold (fun txn => ?_) (fun txn k' hk' => ?_) fun txn => ?_ <;>
      by_cases htxn : txn = txnId
    · rw [hown]
      simp [htxn, hnext, (List.nodup_cons.mp hnd).left]
    · rw [hown, if_neg htxn, hheld]
      split <;> simp_all
    · simp [htxn, hk']
    · rw [if_neg htxn, if_neg htxn, hheld]
      split <;> simp [hk']
    · simpa [htxn] using (List.nodup_cons.mp hnd).right
    · rw [if_neg htxn, hheld]
      split
      · exact (hnodup txn htxn).append (List.nodup_singleton k)
          (List.disjoint_singleton.mpr (hfree txn htxn))
      · exact hnodup txn htxn

theorem releaseKey (h : Releasing t txnId (k :: keys)) :
    Releasing (t.releaseKey txnId committedAt visibleSeq k) txnId keys := by
  obtain ⟨hne, e, he, howner⟩ := h.owner
  have hold := h.consistent.older k e he
  simp only [Table.releaseKey, he, howner, ne_eq, not_true_eq_false, if_false, handOff,
    AList.lookup_insert]
  cases hw : e.waiters
  case nil =>
    simp only
    split
    case isTrue =>
      -- The entry stays for its stamp.
      refine h.pass none (fun k' hk' => by simp [hk']) (fun e' he' => ?_) (fun txn => ?_)
        (fun txn => rfl) (by simp)
      · cases Option.some.inj ((AList.lookup_insert _).symm.trans he')
        simp
      · simp [Owns, eq_comm]
    exact h.pass none (fun k' hk' => by simp [hk']) (fun e' he' => by simp at he')
      (fun txn => by simp [Owns]) (fun txn => rfl) (by simp)
  case cons w ws =>
    obtain ⟨hwne, hwlt⟩ := hold w (by simp [hw])
    refine h.pass (some w.txnId) (fun k' hk' => by simp [hk']) (fun e' he' w' hw' => ?_)
      (fun txn => ?_) (fun txn => ?_) ?_
    · cases Option.some.inj ((AList.lookup_insert _).symm.trans he')
      obtain ⟨hw', hlt⟩ := List.mem_filter.mp hw'
      exact ⟨(hold w' (by simp [hw, hw'])).left, by simpa using hlt⟩
    · simp only [Owns, entries_pushHeld, entries_setCells, AList.lookup_insert, Option.some.injEq,
        exists_eq_left', and_iff_right_iff_imp]
      exact fun h => h ▸ hwne
    · rw [heldBy_pushHeld]
      by_cases htxn : txn = w.txnId
      case pos => subst htxn; simp only [if_true]; rfl
      case neg => rw [if_neg htxn, if_neg fun h => htxn (Option.some.inj h).symm]; rfl
    · rw [Ne, Option.some.injEq]
      omega

theorem denyKey (h : Releasing t txnId (k :: keys)) : Releasing (t.denyKey txnId k) txnId keys := by
  obtain ⟨hne, e, he, howner⟩ := h.owner
  simp only [Table.denyKey, he, howner, ne_eq, not_true_eq_false, if_false]
  exact h.pass none (fun k' hk' => by simp [hk']) (fun e' he' => by simp at he')
    (fun txn => by simp [Owns]) (fun txn => rfl) (by simp)

theorem foldl (hf : ∀ t k keys, Releasing t txnId (k :: keys) → Releasing (f t k) txnId keys)
    (h : Releasing t txnId keys) : Releasing (keys.foldl f t) txnId [] := by
  induction keys generalizing t
  case nil => exact h
  case cons k keys hi => exact hi (hf t k keys h)

end Releasing

theorem lookup_sweep (h : (t.sweep visibleSeq).entries.lookup k = some e) :
    t.entries.lookup k = some e := by
  unfold sweep at h
  split at h
  case isTrue => exact h
  case isFalse => exact (Option.filter_eq_some_iff.mp (Map.lookup_retain _ k ▸ h)).left

theorem owns_sweep (hne : txnId ≠ noOwner) : (t.sweep visibleSeq).Owns txnId k ↔ t.Owns txnId k := by
  refine exists_congr fun e => and_congr_left fun ho => ⟨lookup_sweep, fun he => ?_⟩
  unfold sweep
  split
  case isTrue => exact he
  exact (Map.lookup_retain _ k).trans (Option.filter_eq_some_iff.mpr ⟨he, by simp [ho, hne]⟩)

theorem heldBy_sweep : (t.sweep visibleSeq).heldBy txnId = t.heldBy txnId := by
  unfold sweep
  split <;> rfl

theorem Safe.sweep (h : t.Safe) : (t.sweep visibleSeq).Safe where
  older k e he := h.older k e (lookup_sweep he)
  nodup txnId  := by
    rw [heldBy_sweep]
    exact h.nodup txnId
  held txnId k := by
    rw [heldBy_sweep, h.held]
    exact and_congr_right fun hne => (owns_sweep hne).symm

theorem Safe.releaseAll (h : t.Safe) : (t.releaseAll txnId committedAt visibleSeq).Safe := by
  unfold Table.releaseAll
  split
  case h_1 => exact h
  case h_2 keys hk => exact (Releasing.foldl (fun _ _ _ h => h.releaseKey) (.first h hk)).last.sweep

theorem Safe.denyAll (h : t.Safe) : (t.denyAll txnId).Safe := by
  unfold Table.denyAll
  split
  case h_1 => exact h
  case h_2 keys hk => exact (Releasing.foldl (fun _ _ _ h => h.denyKey) (.first h hk)).last

theorem lookup_wakeEveryWaiter : t.wakeEveryWaiter.entries.lookup k =
    (t.entries.lookup k).map fun e => { e with waiters := [] } :=
  Map.lookup_mapValues _ k

theorem Safe.wakeEveryWaiter (h : t.Safe) : t.wakeEveryWaiter.Safe where
  older k e he := by
    obtain ⟨e', _, rfl⟩ := Option.map_eq_some_iff.mp (lookup_wakeEveryWaiter ▸ he)
    simp
  __ := h
  held txnId k := by
    refine (h.held txnId k).trans (and_congr_right fun _ => ?_)
    rw [Owns, Owns, lookup_wakeEveryWaiter]
    cases t.entries.lookup k <;> simp

theorem Safe.wakeAllWithError (h : t.Safe) : (t.wakeAllWithError err).Safe :=
  Safe.wakeEveryWaiter (h.congr rfl fun _ => rfl)

theorem Safe.shutDown (h : t.Safe) : (t.shutDown err).Safe :=
  Safe.wakeEveryWaiter (h.congr rfl fun _ => rfl)

theorem safe_new : new.Safe where
  older k e he := by simp [new] at he
  nodup txnId  := by simp [new, heldBy]
  held txnId k := by simp [new, heldBy, Owns]

theorem Safe.not_owns_releaseAll (h : t.Safe) (hne : txnId ≠ noOwner) :
    ¬(t.releaseAll txnId committedAt visibleSeq).Owns txnId k := by
  unfold Table.releaseAll
  split
  case h_1 hk =>
    intro ho
    simpa [heldBy, hk] using (h.held txnId k).mpr ⟨hne, ho⟩
  case h_2 keys hk =>
    rw [owns_sweep hne]
    exact (Releasing.foldl (fun _ _ _ h => h.releaseKey) (.first h hk)).not_owns hne

theorem Safe.not_owns_denyAll (h : t.Safe) (hne : txnId ≠ noOwner) :
    ¬(t.denyAll txnId).Owns txnId k := by
  unfold Table.denyAll
  split
  case h_1 hk =>
    intro ho
    simpa [heldBy, hk] using (h.held txnId k).mpr ⟨hne, ho⟩
  case h_2 keys hk => exact (Releasing.foldl (fun _ _ _ h => h.denyKey) (.first h hk)).not_owns hne

def WaitsFor (t : Table) (txn₁ txn₂ : Nat) : Prop :=
  ∃ k e, t.entries.lookup k = some e ∧ (∃ w ∈ e.waiters, w.txnId = txn₁) ∧ e.owner = txn₂

-- Waits point from older to younger transactions, so they cannot form a cycle.
theorem Safe.lt_of_waitsFor (h : t.Safe) (hw : Relation.TransGen t.WaitsFor txn₁ txn₂) :
    txn₁ < txn₂ := by
  have hstep : ∀ {txn₁ txn₂}, t.WaitsFor txn₁ txn₂ → txn₁ < txn₂ := by
    rintro _ _ ⟨k, e, he, ⟨w, hw, rfl⟩, rfl⟩
    exact (h.older k e he w hw).right
  induction hw
  case single hw => exact hstep hw
  case tail _ _ _ hw hlt => exact hlt.trans (hstep hw)

end Table

namespace System

variable {s s' : System}

theorem acquire_table : (s.acquire txnId cfId key).table = (s.table.acquire txnId cfId key).1 := by
  unfold acquire
  split <;> simp_all

theorem wake_table : (s.wake p).table = s.table := by
  unfold wake
  split <;> rfl

theorem Step.safe (h : Step s s') (hs : s.table.Safe) : s'.table.Safe := by
  cases h
  case acquire hne => exact acquire_table ▸ hs.acquire hne
  case wake => rwa [wake_table]
  case release => exact hs.releaseAll
  case deny => exact hs.denyAll
  case wakeAll => exact hs.wakeAllWithError
  case shutDown => exact hs.shutDown

theorem safe_of_reachable (h : Reachable new Step s) : s.table.Safe :=
  h.invariant Table.safe_new fun _ _ => Step.safe

-- The lock table is safe in every state that some interleaving of the operations reaches.
theorem lock_table_safe (h : Reachable new Step s) :
    (∀ k txn₁ txn₂, s.table.Owns txn₁ k → s.table.Owns txn₂ k → txn₁ = txn₂) ∧
    (∀ k e, s.table.entries.lookup k = some e → ∀ w ∈ e.waiters, w.txnId < e.owner) ∧
    (∀ txn, ¬Relation.TransGen s.table.WaitsFor txn txn) ∧
    (∀ k e, s.table.entries.lookup k = some e → e.owner = noOwner → e.waiters = []) ∧
    (∀ txn, txn ≠ noOwner →
      (s.table.heldBy txn).Nodup ∧ ∀ k, k ∈ s.table.heldBy txn ↔ s.table.Owns txn k) ∧
    (∀ txn, txn ≠ noOwner → ∀ k committedAt visibleSeq,
      ¬(s.table.releaseAll txn committedAt visibleSeq).Owns txn k ∧
      ¬(s.table.denyAll txn).Owns txn k) := by
  have hs := safe_of_reachable h
  refine ⟨fun k _ _ => Table.Owns.unique, fun k e he w hw => (hs.older k e he w hw).right,
    fun txn hw => lt_irrefl txn (hs.lt_of_waitsFor hw), fun k e => hs.waiters_eq_nil,
    fun txn hne => ⟨hs.nodup txn, fun k => ?_⟩, fun txn hne k committedAt visibleSeq => ?_⟩
  · rw [hs.held, and_iff_right hne]
  · exact ⟨hs.not_owns_releaseAll hne, hs.not_owns_denyAll hne⟩

-- Transaction 5 hands its lock to 2, which arrived before 4.
def handedOff : System :=
  let s := new |>.acquire 5 0 [1] |>.acquire 2 0 [1] |>.acquire 4 0 [1]
  { s with table := s.table.releaseAll 5 (some 7) 7 }

theorem lock_table_safe_handedOff :
    Reachable new Step handedOff ∧ handedOff.table.Owns 2 (0, [1]) ∧
    handedOff.table.heldBy 2 = [(0, [1])] ∧ ¬(handedOff.table.releaseAll 2 none 7).Owns 2 (0, [1]) := by
  have h : Reachable new Step handedOff :=
    Reachable.start |>.next (.acquire (by decide)) |>.next (.acquire (by decide))
      |>.next (.acquire (by decide)) |>.next .release
  exact ⟨h, ⟨_, rfl, rfl⟩, rfl, (lock_table_safe h).2.2.2.2.2 2 (by decide) _ none 7 |>.left⟩

end System

end OndaDb.TxnLock

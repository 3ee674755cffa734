import OndaDb.Txn.Script
import OndaDb.Txn.Theorems.WriteOrder

namespace OndaDb

open List

variable {K V : Type} [LinearOrder K] [Repr K] [Inhabited V]

namespace Txn

variable {env : Env K V} {family : Nat → Family K V} {t t' : Txn K V} {s : Surviving K V}
variable {hash : Nat → K → Nat}

structure Consistent (t : Txn K V) (s : Surviving K V) : Prop where
  writes : t.writes = s.ops
  -- A savepoint is a length, which stands for a copy of the buffer.
  saved : t.savepoints.map (fun p => (p.1, t.writes.take p.2.1)) = s.saved
  bound : ∀ p ∈ t.savepoints, p.2.1 ≤ t.writes.length
  sorted : t.savepoints.Pairwise (·.2.1 ≤ ·.2.1)

omit [LinearOrder K] [Repr K] [Inhabited V] in
theorem Consistent.congr (h : Consistent t s) (hw : t'.writes = t.writes)
    (hs : t'.savepoints = t.savepoints) : Consistent t' s where
  writes := hw ▸ h.writes
  saved := by rw [hw, hs, h.saved]
  bound := by rw [hw, hs]; exact h.bound
  sorted := hs ▸ h.sorted

omit [LinearOrder K] [Repr K] [Inhabited V] in
theorem Consistent.pushWrite (h : Consistent t s) :
    Consistent (t.pushWrite hash ⟨cf.id, op⟩) (s.write cf op) where
  writes := by rw [Txn.pushWrite, Surviving.write, h.writes]
  saved := by
    rw [Surviving.write, ← h.saved]
    refine map_congr_left fun p hp => ?_
    rw [Txn.pushWrite, take_append_of_le_length (h.bound p hp)]
  bound p hp := by
    have := h.bound p hp
    simp only [Txn.pushWrite, length_append]
    omega
  __ := h

omit [LinearOrder K] [Repr K] [Inhabited V] in
theorem findSavepoint_eq_ok (h : t.findSavepoint name = .ok pos) : pos < t.savepoints.length ∧
    (t.savepoints.reverse.dropWhile (·.1 ≠ name)).reverse = t.savepoints.take (pos + 1) := by
  rw [findSavepoint] at h
  split at h
  case h_2 => cases h
  case h_1 i hi =>
    cases h
    have hlt : i < t.savepoints.length := by
      simpa using (findIdx?_eq_some_iff_getElem.mp hi).1
    have hdrop : t.savepoints.reverse.dropWhile (·.1 ≠ name) = t.savepoints.reverse.drop i := by
      rw [dropWhile_eq_drop_findIdx_not]
      congr 1
      rw [findIdx_eq_getD_findIdx?]
      simp [hi]
    refine ⟨by omega, ?_⟩
    rw [hdrop, drop_reverse, reverse_reverse]
    congr 1
    omega

def copy (t : Txn K V) (p : String × Nat × Nat) : String × List (WriteEntry K V) :=
  (p.1, t.writes.take p.2.1)

omit [LinearOrder K] [Repr K] [Inhabited V] in
theorem Consistent.unwind (h : Consistent t s) (hp : t.findSavepoint name = .ok pos) :
    s.unwind name true = (t.savepoints.take (pos + 1)).map t.copy := by
  rw [Surviving.unwind, if_pos rfl, ← h.saved, ← (findSavepoint_eq_ok hp).2, ← map_reverse,
    dropWhile_map, map_reverse]
  rfl

omit [LinearOrder K] [Repr K] in
theorem Consistent.rollback (h : Consistent t s)
    (ht : t.rollbackToSavepoint hash name = .ok t') :
    Consistent t' (s.call (.rollbackToSavepoint name)) := by
  rw [rollbackToSavepoint] at ht
  cases hp : t.findSavepoint name
  case error => simp [hp, bind, Except.bind] at ht
  case ok pos =>
    simp only [hp, bind, Except.bind, pure, Except.pure, Except.ok.injEq] at ht
    have hlt := (findSavepoint_eq_ok hp).1
    obtain ⟨⟨label, len, reads⟩, hq⟩ : ∃ q, t.savepoints[pos]? = some q :=
      ⟨_, getElem?_eq_getElem hlt⟩
    have hlast : (t.savepoints.take (pos + 1)).getLast? = some (label, len, reads) := by
      rw [getLast?_eq_getElem?, length_take, Nat.min_eq_left hlt]
      simpa using hq
    -- An older savepoint is no longer than this one.
    have hle : ∀ p ∈ t.savepoints.take (pos + 1), p.2.1 ≤ len := by
      intro p hpm
      have hs := h.sorted.sublist (take_sublist (pos + 1) _)
      rw [← dropLast_append_getLast? _ hlast] at hs hpm
      rcases mem_append.mp hpm with hpm | hpm
      · exact (pairwise_append.mp hs).2.2 p hpm _ (mem_singleton_self _)
      · rw [mem_singleton.mp hpm]
    rw [getD, hq, Option.getD_some] at ht
    subst ht
    refine ⟨?_, ?_, ?_, h.sorted.sublist (take_sublist _ _)⟩
    · simp only [Surviving.call, h.unwind hp, getLast?_map, hlast, Option.map_some,
        Option.getD_some, copy]
    · simp only [Surviving.call, h.unwind hp]
      refine map_congr_left fun p hpm => ?_
      rw [copy, take_take, Nat.min_eq_left (hle p hpm)]
    · intro p hpm
      have := hle p hpm
      have := h.bound p (mem_of_mem_take hpm)
      simp only [length_take]
      omega

omit [LinearOrder K] [Repr K] in
theorem Consistent.release (h : Consistent t s) (ht : t.releaseSavepoint name = .ok t') :
    Consistent t' (s.call (.releaseSavepoint name)) := by
  rw [releaseSavepoint] at ht
  cases hp : t.findSavepoint name
  case error => simp [hp, bind, Except.bind] at ht
  case ok pos =>
    simp only [hp, bind, Except.bind, pure, Except.pure, Except.ok.injEq] at ht
    subst ht
    have hlt := (findSavepoint_eq_ok hp).1
    have hu : s.unwind name false = (t.savepoints.take pos).map t.copy := by
      have : s.unwind name false = (s.unwind name true).dropLast := rfl
      rw [this, h.unwind hp, ← map_dropLast, take_add_one,
        getElem?_eq_getElem hlt, Option.toList_some, dropLast_concat]
    exact ⟨h.writes, by simp only [Surviving.call, hu]; rfl,
      fun p hpm => h.bound p (mem_of_mem_take hpm), h.sorted.sublist (take_sublist _ _)⟩

omit [LinearOrder K] [Repr K] in
theorem Consistent.setSavepoint (h : Consistent t s) :
    Consistent (t.setSavepoint name) (s.call (.setSavepoint name)) where
  __ := h
  saved := by
    simp only [Txn.setSavepoint, Surviving.call, map_append, map_singleton, ← h.saved]
    rw [take_length, h.writes]
  bound p hp := by
    rcases mem_append.mp hp with hp | hp
    · exact h.bound p hp
    · rw [mem_singleton.mp hp]
      exact le_rfl
  sorted := by
    refine pairwise_append.mpr ⟨h.sorted, pairwise_singleton _ _, ?_⟩
    intro p hp q hq
    rw [mem_singleton.mp hq]
    exact h.bound p hp

section get

def Kept (t t' : Txn K V) : Prop :=
  t'.writes = t.writes ∧ t'.savepoints = t.savepoints

omit [LinearOrder K] [Repr K] [Inhabited V] in
theorem ensureWriteIndex_kept (hash : Nat → K → Nat) (t : Txn K V) :
    t.Kept (t.ensureWriteIndex hash) := by
  rw [ensureWriteIndex]
  split <;> exact ⟨rfl, rfl⟩

omit [Repr K] [Inhabited V] in
theorem noteStoreRead_kept (t : Txn K V) (floor cf : Nat) (k : K) :
    t.Kept (t.noteStoreRead floor cf k).1 := by
  rw [noteStoreRead]
  dsimp only
  split <;> exact ⟨rfl, rfl⟩

omit [Repr K] in
theorem planPointRead_kept (hash : Nat → K → Nat) (t : Txn K V) (floor cf : Nat) (k : K) :
    t.Kept (t.planPointRead hash floor cf k).1 := by
  rw [planPointRead]
  split
  · split <;> exact ⟨rfl, rfl⟩
  · split
    · exact ⟨rfl, rfl⟩
    · exact t.noteStoreRead_kept floor cf k

omit [LinearOrder K] [Repr K] [Inhabited V] in
theorem finishRead_fst : (finishRead store k p).1 = p.1 := by
  obtain ⟨_, r⟩ := p
  cases r <;> rfl

omit [Repr K] in
theorem get_kept (hash : Nat → K → Nat) (store : StoreRead K V) (t : Txn K V) (floor : Nat)
    (cf : Family K V) (k : K) : t.Kept (t.get hash store floor cf k).1 := by
  have he := t.ensureWriteIndex_kept hash
  rw [get]
  generalize t.ensureWriteIndex hash = u at he
  have hp := u.planPointRead_kept hash floor cf.id k
  have hn := u.noteStoreRead_kept floor cf.id k
  have trans : ∀ {v : Txn K V}, u.Kept v → t.Kept v :=
    fun h => ⟨h.1.trans he.1, h.2.trans he.2⟩
  have hplain : t.Kept (finishRead store k (u.planPointRead hash floor cf.id k)).1 := by
    rw [finishRead_fst]
    exact trans hp
  split
  · exact hplain
  · split
    · exact hplain
    · split
      · split <;> exact he
      · exact trans hn

end get

structure Accepted (family : Nat → Family K V) (ops : List (WriteEntry K V)) : Prop where
  ranges : RangesNonempty ops
  merges : ∀ w ∈ ops, w.isMerge → (family w.cf).mergeOp ≠ none

omit [Repr K] [Inhabited V] in
theorem Accepted.write (h : Accepted family ops)
    (hr : WriteEntry.isRange w → w.covers w.cf w.key)
    (hm : w.isMerge → (family w.cf).mergeOp ≠ none) : Accepted family (ops ++ [w]) where
  ranges x hx := by
    rcases mem_append.mp hx with hx | hx
    · exact h.ranges x hx
    · rw [mem_singleton.mp hx]
      exact hr
  merges x hx := by
    rcases mem_append.mp hx with hx | hx
    · exact h.merges x hx
    · rw [mem_singleton.mp hx]
      exact hm

omit [Repr K] [Inhabited V] in
theorem Accepted.subset (h : Accepted family ops) (hs : ops' ⊆ ops) : Accepted family ops' where
  ranges x hx := h.ranges x (hs hx)
  merges x hx := h.merges x (hs hx)

omit [LinearOrder K] [Repr K] [Inhabited V] in
theorem buffer_eq_ok (h : t.buffer hash cf k x ttl kind = .ok t') :
    t' = t.pushWrite hash ⟨cf.id, .point k x ttl kind⟩ := by
  rw [buffer, ensureActive] at h
  split at h
  · cases h
    rfl
  · cases h

omit [LinearOrder K] [Repr K] [Inhabited V] in
theorem merge_eq_ok (h : t.merge hash cf k x = .ok t') :
    cf.mergeOp ≠ none ∧ t' = t.pushWrite hash ⟨cf.id, .point k x 0 .merge⟩ := by
  rw [merge] at h
  by_cases hm : cf.mergeOp.isNone
  · simp only [hm, if_true] at h
    cases ht : t.ensureActive <;> simp [ht, bind, Except.bind, throw, throwThe, MonadExceptOf.throw] at h
  · refine ⟨by simpa using hm, ?_⟩
    cases ht : t.ensureActive <;> cases he : cf.mergeWritesEnabled <;>
      simp [hm, ht, he, bind, Except.bind, throw, throwThe, MonadExceptOf.throw] at h
    exact buffer_eq_ok h

omit [Inhabited V] in
theorem deleteRange_eq_ok (h : t.deleteRange hash b e cf start stop = .ok t') :
    start < stop ∧ t' = t.pushWrite hash ⟨cf.id, .range start stop⟩ := by
  rw [deleteRange, validateRangeBounds] at h
  by_cases hs : stop ≤ start
  · cases ht : t.ensureActive <;> cases b <;> cases h₁ : e start <;> cases h₂ : e stop <;>
      simp [hs, ht, h₁, h₂, bind, Except.bind, throw, throwThe, MonadExceptOf.throw] at h
  · refine ⟨not_le.mp hs, ?_⟩
    cases ht : t.ensureActive <;> cases b <;> cases h₁ : e start <;> cases h₂ : e stop <;>
      simp [hs, ht, h₁, h₂, bind, Except.bind, throw, throwThe, MonadExceptOf.throw, pure,
        Except.pure] at h
    exact h.symm

theorem Consistent.step (h : Consistent t s) (hc : t.call env store floor c = .ok t') :
    Consistent t' (s.call c) := by
  cases c
  case put | delete | singleDelete => exact buffer_eq_ok hc ▸ h.pushWrite
  case merge => exact (merge_eq_ok hc).2 ▸ h.pushWrite
  case deleteRange => exact (deleteRange_eq_ok hc).2 ▸ h.pushWrite
  case setSavepoint => exact Except.ok.inj hc ▸ h.setSavepoint
  case rollbackToSavepoint => exact h.rollback hc
  case releaseSavepoint => exact h.release hc
  case get cf k =>
    have hk := t.get_kept env.hash (store cf.id) floor cf k
    exact Except.ok.inj hc ▸ h.congr hk.1 hk.2

theorem Accepted.step (h : Accepted family t.writes) (hf : ∀ cf ∈ c.family?, family cf.id = cf)
    (hc : t.call env store floor c = .ok t') : Accepted family t'.writes := by
  cases c
  case put | delete | singleDelete =>
    rw [buffer_eq_ok hc]
    exact h.write (by simp [WriteEntry.isRange]) (by simp [WriteEntry.isMerge])
  case merge cf k x =>
    obtain ⟨hm, rfl⟩ := merge_eq_ok hc
    refine h.write (by simp [WriteEntry.isRange]) fun _ => ?_
    rwa [hf cf (by simp [Call.family?])]
  case deleteRange cf a b =>
    obtain ⟨hlt, rfl⟩ := deleteRange_eq_ok hc
    exact h.write (fun _ => by simpa [WriteEntry.covers, WriteEntry.key] using hlt)
      (by simp [WriteEntry.isMerge])
  case setSavepoint => exact Except.ok.inj hc ▸ h
  case rollbackToSavepoint name =>
    refine h.subset ?_
    simp only [call, rollbackToSavepoint] at hc
    cases hp : t.findSavepoint name <;>
      simp only [hp, bind, Except.bind, pure, Except.pure, Except.ok.injEq, reduceCtorEq] at hc
    exact hc ▸ take_subset _ _
  case releaseSavepoint name =>
    simp only [call, releaseSavepoint] at hc
    cases hp : t.findSavepoint name <;>
      simp only [hp, bind, Except.bind, pure, Except.pure, Except.ok.injEq, reduceCtorEq] at hc
    exact hc ▸ h
  case get cf k =>
    have hk := t.get_kept env.hash (store cf.id) floor cf k
    rw [← Except.ok.inj hc, hk.1]
    exact h

theorem Scripted.run (h : Scripted env family t s)
    (hf : ∀ c ∈ calls, ∀ cf ∈ c.family?, family cf.id = cf)
    (hr : t.run env store floor calls = .ok t') :
    Scripted env family t' (calls.foldl Surviving.call s) := by
  induction calls generalizing t s
  case nil =>
    obtain rfl : t = t' := Except.ok.inj hr
    exact h
  case cons c calls hi =>
    rw [Txn.run, foldlM_cons] at hr
    cases hc : t.call env store floor c
    case error => simp [hc, bind, Except.bind] at hr
    case ok u =>
      simp only [hc, bind, Except.bind] at hr
      exact hi (h.call (hf c (by simp)) hc) (fun c hc => hf c (by simp [hc])) hr

theorem Scripted.consistent (h : Scripted env family t s) : Consistent t s := by
  induction h
  case start => exact ⟨rfl, rfl, by simp [beginInner], by simp [beginInner]⟩
  case call _ hc hi => exact hi.step hc

theorem Scripted.accepted (h : Scripted env family t s) : Accepted family t.writes := by
  induction h
  case start => exact ⟨by simp [RangesNonempty, beginInner], by simp [beginInner]⟩
  case call _ hf hc hi => exact hi.step hf hc

end Txn

end OndaDb

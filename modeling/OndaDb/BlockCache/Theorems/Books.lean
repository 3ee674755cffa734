import OndaDb.BlockCache.Basic
import OndaDb.Lib.Run
import Mathlib.Data.List.Induction

namespace OndaDb.BlockCache

open List

abbrev Block := BlockKey × Bytes

def Block.isVlog (b : Block) : Bool :=
  b.1.domain = .vlog

def size (l : List Block) : Nat :=
  (l.map (·.2.length)).sum

structure Tallies (l : List Block) (used : Int) (vlogEntries : Nat) (vlogUsed : Int) : Prop where
  used : used = size l
  vlogEntries : vlogEntries = (l.filter Block.isVlog).length
  vlogUsed : vlogUsed = size (l.filter Block.isVlog)

namespace Tallies

variable {l l' : List Block} {used vlogUsed : Int} {vlogEntries : Nat}

theorem perm (h : Tallies l used vlogEntries vlogUsed) (hp : l.Perm l') : Tallies l' used vlogEntries vlogUsed where
  used := h.used.trans (congrArg _ ((hp.map _).sum_eq))
  vlogEntries := h.vlogEntries.trans (hp.filter _).length_eq
  vlogUsed := h.vlogUsed.trans (congrArg _ (((hp.filter _).map _).sum_eq))

theorem cons (h : Tallies l used vlogEntries vlogUsed) (k : BlockKey) (data : Bytes) :
    Tallies ((k, data) :: l) (used + data.length) (if k.domain = .vlog then vlogEntries + 1 else vlogEntries)
      (if k.domain = .vlog then vlogUsed + data.length else vlogUsed) := by
  obtain ⟨rfl, rfl, rfl⟩ := h
  constructor
  case used => simp [size, add_comm]
  case vlogEntries => by_cases hk : k.domain = .vlog <;> simp [Block.isVlog, hk]
  case vlogUsed => by_cases hk : k.domain = .vlog <;> simp [size, Block.isVlog, hk, add_comm]

theorem of_cons (h : Tallies ((k, data) :: l) used vlogEntries vlogUsed) :
    Tallies l (used - data.length) (if k.domain = .vlog then vlogEntries - 1 else vlogEntries)
      (if k.domain = .vlog then vlogUsed - data.length else vlogUsed) := by
  obtain ⟨rfl, rfl, rfl⟩ := h
  constructor
  case used => simp [size]
  case vlogEntries => by_cases hk : k.domain = .vlog <;> simp [Block.isVlog, hk]
  case vlogUsed => by_cases hk : k.domain = .vlog <;> simp [size, Block.isVlog, hk]

end Tallies

namespace Shard

variable {s s' : Shard} {k : BlockKey} {b : Block}

def stored (s : Shard) : List Block :=
  s.map.map fun e => (e.key, e.data)

structure Balanced (s : Shard) : Prop where
  nodup : (s.stored.map Prod.fst).Nodup
  tallies : Tallies s.stored s.used s.vlogEntries s.vlogUsed
  listed : ∀ b ∈ s.stored, b.1 ∈ s.ring

def Capped (s : Shard) : Prop :=
  s.used ≤ s.cap ∨ s.stored.length ≤ 1

-- The ring holds each resident key once, and nothing else.
def Exact (s : Shard) : Prop :=
  s.ring.Perm (s.stored.map Prod.fst)

theorem map_fst_stored : s.stored.map Prod.fst = s.map.map CacheEntry.key := by
  rw [stored, map_map]
  rfl

@[simp]
theorem stored_mark (k : BlockKey) (referenced : Bool) : (s.mark k referenced).stored = s.stored := by
  rw [stored, mark, map_map]
  refine map_congr_left fun e _ => ?_
  rw [Function.comp_apply]
  split <;> rfl

theorem find_eq_none : s.find k = none ↔ ∀ b ∈ s.stored, b.1 ≠ k := by
  rw [find, Keyed.find_eq_none, stored, forall_mem_map]

theorem Balanced.data_find (h : s.Balanced) : (s.find b.1).map CacheEntry.data = some b.2 ↔ b ∈ s.stored := by
  constructor
  case mp =>
    intro hf
    obtain ⟨e, he, hd⟩ := Option.map_eq_some_iff.mp hf
    obtain ⟨hm, hk⟩ := Keyed.of_find he
    exact mem_map.mpr ⟨e, hm, Prod.ext hk hd⟩
  case mpr =>
    intro hb
    cases he : s.find b.1
    case none => exact absurd rfl (find_eq_none.mp he b hb)
    case some e =>
      obtain ⟨hm, hk⟩ := Keyed.of_find he
      have hb' : (e.key, e.data) ∈ s.stored := mem_map_of_mem hm
      exact congrArg (some ∘ Prod.snd) (inj_on_of_nodup_map h.nodup hb' hb hk)

theorem Balanced.perm_unlink (h : s.Balanced) (he : s.find k = some e) :
    e.key = k ∧ s.stored.Perm ((k, e.data) :: (s.unlink k).stored) := by
  obtain ⟨hm, rfl⟩ := Keyed.of_find he
  have hp := (Keyed.perm_of_mem (map_fst_stored ▸ h.nodup) hm).map fun e => (e.key, e.data)
  refine ⟨rfl, ?_⟩
  simp only [Shard.unlink, he]
  exact hp

theorem Balanced.unlink (h : s.Balanced) (ring : List BlockKey) (hr : ∀ j ∈ s.ring, j ≠ k → j ∈ ring) :
    Balanced { s.unlink k with ring := ring } ∧ (s.unlink k).stored ⊆ s.stored := by
  cases he : s.find k
  case none =>
    have hs : s.unlink k = s := by rw [Shard.unlink, he]
    rw [hs]
    exact ⟨⟨h.nodup, h.tallies, fun b hb => hr _ (h.listed b hb) (find_eq_none.mp he b hb)⟩, List.Subset.refl _⟩
  case some e =>
    obtain ⟨rfl, hp⟩ := h.perm_unlink he
    have hn := nodup_cons.mp ((hp.map Prod.fst).nodup_iff.mp h.nodup)
    have hsub : (s.unlink e.key).stored ⊆ s.stored := fun b hb => hp.symm.subset (mem_cons_of_mem _ hb)
    refine ⟨⟨hn.2, ?_, fun b hb => hr _ (h.listed b (hsub hb)) fun heq => hn.1 (mem_map.mpr ⟨b, hb, heq⟩)⟩, hsub⟩
    have ht := (h.tallies.perm hp).of_cons
    simp only [Shard.unlink, he, CacheEntry.isVlog, decide_eq_true_eq] at ht ⊢
    exact ht

theorem Balanced.evictToCap (h : s.Balanced) (spared : Nat) : (s.evictToCap spared).Balanced ∧
    (s.evictToCap spared).Capped ∧ (s.evictToCap spared).stored ⊆ s.stored ∧
      (s.Exact → (s.evictToCap spared).Exact) := by
  fun_induction Shard.evictToCap s spared
  case case1 s spared hover hr =>
    -- An empty ring lists nothing, so there is nothing left to evict.
    have hnil : s.stored = [] := eq_nil_iff_forall_not_mem.mpr fun b hb => by simpa [hr] using h.listed b hb
    exact ⟨h, .inr (by simp [hnil]), List.Subset.refl _, id⟩
  case case2 s spared hover k ring hr hk ih =>
    have hk' := find_eq_none.mp hk
    refine (ih ⟨h.nodup, h.tallies, fun b hb => ?_⟩).imp_right fun hi => ⟨hi.1, hi.2.1, fun hx => ?_⟩
    case refine_1 => exact (mem_cons.mp (hr ▸ h.listed b hb)).resolve_left (hk' b hb)
    case refine_2 =>
      have hm := hx.subset (hr ▸ mem_cons_self)
      obtain ⟨b, hb, rfl⟩ := mem_map.mp hm
      exact absurd rfl (hk' b hb)
  case case3 s spared hover k ring hr e hk hspare ih =>
    have hrot : (ring ++ [k]).Perm s.ring := hr ▸ perm_append_singleton k ring
    have hs : Shard.stored { s.mark k false with ring := ring ++ [k] } = s.stored := stored_mark k false
    have hb : Balanced { s.mark k false with ring := ring ++ [k] } :=
      ⟨hs ▸ h.nodup, hs ▸ h.tallies, fun b hb => hrot.symm.subset (h.listed b (hs ▸ hb))⟩
    have hi := ih hb
    refine ⟨hi.1, hi.2.1, hs ▸ hi.2.2.1, fun hx => hi.2.2.2 ?_⟩
    rw [Exact, hs]
    exact hrot.trans hx
  case case4 s spared hover k ring hr e hk hspare ih =>
    obtain ⟨hb, hsub⟩ := h.unlink ring fun j hj hne => (mem_cons.mp (hr ▸ hj)).resolve_left hne
    have hi := ih hb
    refine ⟨hi.1, hi.2.1, List.Subset.trans hi.2.2.1 hsub, fun hx => hi.2.2.2 ?_⟩
    have hp := hx.trans ((h.perm_unlink hk).2.map Prod.fst)
    exact (hr ▸ hp).cons_inv
  case case5 s spared hover =>
    refine ⟨h, ?_, List.Subset.refl _, id⟩
    rw [Shard.Capped, stored, length_map]
    omega

-- Entries leave the map; the ring is left to the clock hand.
structure Shrinks (s s' : Shard) : Prop where
  balanced : s'.Balanced
  stored : s'.stored.Sublist s.stored
  used : s'.used ≤ s.used
  cap : s'.cap = s.cap
  ring : s'.ring = s.ring

namespace Shrinks

theorem refl (h : s.Balanced) : Shrinks s s :=
  ⟨h, .refl _, Int.le_refl _, rfl, rfl⟩

theorem unlink (h : s.Balanced) (k : BlockKey) : Shrinks s (s.unlink k) := by
  have hr : (s.unlink k).ring = s.ring := by rw [Shard.unlink]; split <;> rfl
  have hb : (s.unlink k).Balanced := by
    have hb := (h.unlink (k := k) s.ring fun _ hj _ => hj).1
    rwa [← hr] at hb
  refine ⟨hb, ?_, ?_, ?_, hr⟩ <;> rw [Shard.unlink] <;> split
  · exact .refl _
  · exact filter_sublist.map _
  · exact Int.le_refl _
  · dsimp only; omega
  · rfl
  · rfl

theorem foldl (h : s.Balanced) (ks : List BlockKey) : Shrinks s (ks.foldl Shard.unlink s) := by
  induction ks generalizing s
  case nil => exact .refl h
  case cons k ks ih =>
    have h₁ := unlink h k
    have h₂ := ih h₁.balanced
    exact ⟨h₂.balanced, h₂.stored.trans h₁.stored, h₂.used.trans h₁.used, h₂.cap.trans h₁.cap, h₂.ring.trans h₁.ring⟩

theorem capped (h : Shrinks s s') (hc : s.Capped) : s'.Capped := by
  have hu := h.used
  have hl := h.stored.length_le
  rw [Capped, h.cap]
  rcases hc with hc | hc
  · exact .inl (hu.trans hc)
  · exact .inr (hl.trans hc)

theorem exact_iff (h : Shrinks s s') (hx : s.Exact) : s'.Exact ↔ s'.stored = s.stored := by
  rw [Exact, h.ring]
  refine ⟨fun hp => h.stored.eq_of_length ?_, fun heq => heq ▸ hx⟩
  simpa using (hp.symm.trans hx).length_eq

end Shrinks

theorem Balanced.stored_unlink (h : s.Balanced) : (s.unlink k).stored = s.stored ↔ s.find k = none := by
  cases he : s.find k
  case none => simp [Shard.unlink, he]
  case some e =>
    have hl := (h.perm_unlink he).2.length_eq
    rw [length_cons] at hl
    simp only [reduceCtorEq, iff_false]
    intro heq
    rw [heq] at hl
    omega

theorem Balanced.stored_purge (h : s.Balanced) :
    (s.purge ns).stored = s.stored ↔ ∀ b ∈ s.stored, b.1.ns ≠ ns := by
  have hks : (∀ b ∈ s.stored, b.1.ns ≠ ns) ↔ (s.map.map CacheEntry.key).filter (·.ns = ns) = [] := by
    simp [stored]
  rw [hks, purge]
  cases hf : (s.map.map CacheEntry.key).filter (·.ns = ns)
  case nil => simp
  case cons k ks =>
    simp only [reduceCtorEq, iff_false, foldl_cons]
    intro heq
    have hk : k ∈ s.map.map CacheEntry.key := (mem_filter.mp (hf ▸ mem_cons_self)).1
    rw [← map_fst_stored, mem_map] at hk
    obtain ⟨b, hb, rfl⟩ := hk
    have h₁ := Shrinks.unlink h b.1
    have h₂ := (Shrinks.foldl h₁.balanced ks).stored
    rw [heq] at h₂
    exact find_eq_none.mp (h.stored_unlink.mp (h₁.stored.antisymm h₂)) b hb rfl

def Tidy (i : Fin 16) (s : Shard) : Call → Prop
  | .remove k => shardFor k = i → s.find k = none
  | .purgeNamespace ns => ∀ b ∈ s.stored, b.1.ns ≠ ns
  | _ => True

structure Stepped (i : Fin 16) (s : Shard) (call : Call) (s' : Shard) : Prop where
  balanced : s'.Balanced
  capped : s'.Capped
  exact : s.Exact → (s'.Exact ↔ s.Tidy i call)
  stored : ∀ b ∈ s'.stored, b ∈ s.stored ∨ call = .put b.1 b.2 ∧ s.find b.1 = none

variable {i : Fin 16} {call : Call}

theorem Stepped.refl (h : s.Balanced) (hc : s.Capped) (ht : s.Tidy i call) : Stepped i s call s :=
  ⟨h, hc, fun hx => iff_of_true hx ht, fun _ hb => .inl hb⟩

theorem Stepped.mark (h : s.Balanced) (hc : s.Capped) (k : BlockKey) (ht : s.Tidy i call) :
    Stepped i s call (s.mark k true) := by
  have hs := stored_mark (s := s) k true
  exact ⟨⟨hs ▸ h.nodup, hs ▸ h.tallies, hs ▸ h.listed⟩, by rw [Capped, hs]; exact hc,
    fun hx => iff_of_true (by rw [Exact, hs]; exact hx) ht, fun b hb => .inl (hs ▸ hb)⟩

theorem Stepped.of_shrinks (hc : s.Capped) (h : Shrinks s s') (ht : s'.stored = s.stored ↔ s.Tidy i call) :
    Stepped i s call s' :=
  ⟨h.balanced, h.capped hc, fun hx => (h.exact_iff hx).trans ht, fun _ hb => .inl (h.stored.subset hb)⟩

theorem Stepped.put (h : s.Balanced) (hc : s.Capped) (k : BlockKey) (data : Bytes) :
    Stepped i s (.put k data) (s.put k data) := by
  rw [Shard.put]
  cases hk : s.find k
  case some e =>
    exact .mark h hc k trivial
  case none =>
    have hb : Balanced { s with
        map := ⟨k, data, false⟩ :: s.map
        ring := s.ring ++ [k]
        used := s.used + data.length
        vlogEntries := if k.domain = .vlog then s.vlogEntries + 1 else s.vlogEntries
        vlogUsed := if k.domain = .vlog then s.vlogUsed + data.length else s.vlogUsed } := by
      refine ⟨nodup_cons.mpr ⟨fun hm => ?_, h.nodup⟩, h.tallies.cons k data, fun b hb => ?_⟩
      case refine_1 =>
        obtain ⟨b, hb, heq⟩ := mem_map.mp hm
        exact find_eq_none.mp hk b hb heq
      case refine_2 =>
        rcases mem_cons.mp hb with rfl | hb
        · exact mem_append_right _ mem_cons_self
        · exact mem_append_left _ (h.listed b hb)
    have hx (hx : s.Exact) : (s.ring ++ [k]).Perm (k :: s.stored.map Prod.fst) :=
      (perm_append_singleton k s.ring).trans (hx.cons k)
    have hmem {l : List Block} (hl : l ⊆ (k, data) :: s.stored) (b : Block) (hb : b ∈ l) :
        b ∈ s.stored ∨ Call.put k data = .put b.1 b.2 ∧ s.find b.1 = none :=
      (mem_cons.mp (hl hb)).symm.imp_right fun heq => by subst heq; exact ⟨rfl, hk⟩
    dsimp only
    split
    case isTrue =>
      obtain ⟨h₁, h₂, h₃, h₄⟩ := hb.evictToCap 0
      exact ⟨h₁, h₂, fun h => iff_of_true (h₄ (hx h)) trivial, hmem h₃⟩
    case isFalse hle => exact ⟨hb, .inl (Int.not_lt.mp hle), fun h => iff_of_true (hx h) trivial, hmem (List.Subset.refl _)⟩

theorem stepped_exec (h : s.Balanced) (hc : s.Capped) (i : Fin 16) (call : Call) : Stepped i s call (s.exec i call) := by
  cases call <;> rw [exec]
  case get k =>
    split
    · exact .mark h hc k trivial
    · exact .refl h hc trivial
  case peek => exact .refl h hc trivial
  case put k data =>
    split
    · exact .put h hc k data
    · exact .refl h hc trivial
  case remove k =>
    split
    case isTrue hi =>
      refine .of_shrinks hc (.unlink h k) (h.stored_unlink.trans ?_)
      simp [Tidy, hi]
    case isFalse hi => exact .refl h hc fun h => absurd h hi
  case purgeNamespace ns => exact .of_shrinks hc (.foldl h _) h.stored_purge
  case clear =>
    exact ⟨⟨nodup_nil, ⟨rfl, rfl, rfl⟩, fun _ hb => nomatch hb⟩, .inr (Nat.zero_le 1),
      fun _ => iff_of_true (.refl _) trivial, fun _ hb => nomatch hb⟩

end Shard

namespace Cache

variable {c : Cache} {call : Call} {k : BlockKey} {data : Bytes}

def run (capacityBytes : Int) (calls : List Call) : Cache :=
  calls.foldl exec (new capacityBytes)

def Sound (c : Cache) : Prop :=
  ∀ i, (c.shards i).Balanced ∧ (c.shards i).Capped

def Exact (c : Cache) : Prop :=
  ∀ i, (c.shards i).Exact

-- A removal, or a purge, finds nothing to unlink.
def Tidy (c : Cache) (call : Call) : Prop :=
  c.enabled → ∀ i, (c.shards i).Tidy i call

theorem Sound.exec (h : c.Sound) (call : Call) : (c.exec call).Sound := by
  rw [Cache.exec]
  split
  · exact fun i => ⟨(Shard.stepped_exec (h i).1 (h i).2 i call).balanced, (Shard.stepped_exec (h i).1 (h i).2 i call).capped⟩
  · exact h

theorem Sound.exact_exec (h : c.Sound) (hx : c.Exact) (call : Call) : (c.exec call).Exact ↔ c.Tidy call := by
  rw [Cache.exec, Tidy]
  split
  case isTrue he =>
    have hi (i : Fin 16) := (Shard.stepped_exec (h i).1 (h i).2 i call).exact (hx i)
    exact ⟨fun h _ i => (hi i).mp (h i), fun h i => (hi i).mpr (h he i)⟩
  case isFalse he => exact iff_of_true hx fun h => absurd h he

theorem Sound.lookup_exec (h : c.Sound) (hl : (c.exec call).lookup k = some data) :
    c.lookup k = some data ∨ call = .put k data ∧ c.lookup k = none := by
  rw [Cache.exec] at hl
  split at hl
  case isFalse => exact .inl hl
  case isTrue he =>
    simp only [lookup, he, if_true] at hl ⊢
    have hs := Shard.stepped_exec (h (shardFor k)).1 (h (shardFor k)).2 (shardFor k) call
    rcases hs.stored (k, data) ((hs.balanced.data_find (b := (k, data))).mp hl) with hb | ⟨hp, hn⟩
    · exact .inl (((h _).1.data_find (b := (k, data))).mpr hb)
    · exact .inr ⟨hp, by rw [hn]; rfl⟩

theorem sound_run (capacityBytes : Int) (calls : List Call) : (run capacityBytes calls).Sound := by
  induction calls using reverseRecOn
  case nil =>
    exact fun _ => ⟨⟨nodup_nil, ⟨rfl, rfl, rfl⟩, fun _ hb => nomatch hb⟩, .inr (Nat.zero_le 1)⟩
  case append_singleton calls call ih =>
    rw [run, foldl_append]
    exact ih.exec call

theorem exact_foldl (h : c.Sound) (hx : c.Exact) (ha : Allowed exec Tidy c calls) :
    Exact (calls.foldl exec c) := by
  induction calls generalizing c
  case nil => exact hx
  case cons call calls ih => exact ih (h.exec call) ((h.exact_exec hx call).mpr ha.1) ha.2

theorem hit_run (hl : (run capacityBytes calls).lookup k = some data) :
    ∃ before after, calls = before ++ .put k data :: after ∧ (run capacityBytes before).lookup k = none ∧
      ∀ during, during <+: after → (run capacityBytes (before ++ .put k data :: during)).lookup k = some data := by
  induction calls using reverseRecOn
  case nil => simp [run, new, lookup, Shard.find, Shard.new, Keyed.find] at hl
  case append_singleton calls call ih =>
    have hl' := hl
    rw [run, foldl_append] at hl'
    rcases (sound_run capacityBytes calls).lookup_exec hl' with hold | ⟨rfl, hn⟩
    case inr =>
      refine ⟨calls, [], rfl, hn, fun during hd => ?_⟩
      rw [prefix_nil.mp hd]
      exact hl
    case inl =>
      obtain ⟨before, after, rfl, hn, hd⟩ := ih hold
      refine ⟨before, after ++ [call], by simp, hn, fun during hp => ?_⟩
      rcases prefix_concat_iff.mp hp with rfl | hp
      · simpa using hl
      · exact hd during hp

end Cache

open Cache in
theorem books_balance (capacityBytes : Int) (calls : List Call) :
    (∀ k data, (run capacityBytes calls).lookup k = some data →
      ∃ before after, calls = before ++ .put k data :: after ∧ (run capacityBytes before).lookup k = none ∧
        ∀ during, during <+: after → (run capacityBytes (before ++ .put k data :: during)).lookup k = some data) ∧
    (∀ i, ((run capacityBytes calls).shards i).Balanced ∧ ((run capacityBytes calls).shards i).Capped) ∧
    ((run capacityBytes calls).Exact →
      ∀ call, ((run capacityBytes calls).exec call).Exact ↔ (run capacityBytes calls).Tidy call) ∧
    (Allowed exec Tidy (new capacityBytes) calls → (run capacityBytes calls).Exact) :=
  ⟨fun _ _ => hit_run, sound_run capacityBytes calls, fun hx => (sound_run capacityBytes calls).exact_exec hx,
    exact_foldl (sound_run capacityBytes []) fun _ => .refl _⟩

-- A key that is removed and put again is twice in the ring.
theorem ring_repeats :
    let k : BlockKey := ⟨0, 3, 0, .vlog⟩
    ((Cache.run 16384 [.put k [9], .remove k, .put k [9]]).shards (shardFor k)).ring = [k, k] := by
  decide +kernel

end OndaDb.BlockCache

import OndaDb.Lib.Run
import OndaDb.TableCache.Basic
import Mathlib.Algebra.BigOperators.Fin
import Mathlib.Algebra.Order.BigOperators.Group.Finset

namespace OndaDb.TableCache

open List

open Finset (univ)

variable {R : Type} {readerBytes : R → Nat} {order : List (Entry R) → List (Entry R)}

def total (w : Entry R → Nat) (shards : Fin SHARDS → List (Entry R)) : Nat :=
  ∑ i, ((shards i).map w).sum

theorem total_update (w : Entry R → Nat) (shards : Fin SHARDS → List (Entry R)) (i : Fin SHARDS)
    (l : List (Entry R)) :
    total w (Function.update shards i l) + ((shards i).map w).sum = total w shards + (l.map w).sum := by
  have hrest : ∀ j ∈ univ.erase i, ((Function.update shards i l j).map w).sum = ((shards j).map w).sum :=
    fun j hj => by rw [Function.update_of_ne (Finset.ne_of_mem_erase hj)]
  rw [total, total, ← Finset.add_sum_erase _ _ (Finset.mem_univ i),
    ← Finset.add_sum_erase (univ) (fun j => ((shards j).map w).sum) (Finset.mem_univ i),
    Finset.sum_congr rfl hrest, Function.update_self]
  omega

theorem le_total (w : Entry R → Nat) (shards : Fin SHARDS → List (Entry R)) (i : Fin SHARDS) :
    ((shards i).map w).sum ≤ total w shards :=
  Finset.single_le_sum (f := fun i => ((shards i).map w).sum) (fun _ _ => Nat.zero_le _) (Finset.mem_univ i)

theorem total_filter (w : Entry R → Nat) (p : Entry R → Bool) (shards : Fin SHARDS → List (Entry R)) :
    total w shards = total w (fun i => (shards i).filter p) + total w (fun i => (shards i).filter (!p ·)) := by
  rw [total, total, total, ← Finset.sum_add_distrib]
  refine Finset.sum_congr rfl fun i _ => ?_
  rw [← ((filter_append_perm p (shards i)).map w).sum_eq, map_append, sum_append]

namespace Core

variable {c c' : Core R}

structure Exact (c : Core R) : Prop where
  nodup : ∀ i, ((c.shards i).map Entry.key).Nodup
  count : c.openCount = total (fun _ => 1) c.shards
  bytes : c.openBytes = total Entry.bytes c.shards

structure Within (c : Core R) : Prop where
  count : c.openCount ≤ c.maxOpen
  bytes : c.maxBytes = 0 ∨ c.openBytes ≤ c.maxBytes ∨ c.openCount ≤ 1

theorem overBound_eq_false : c.overBound = false ↔ c.Within := by
  simp only [overBound, gt_iff_lt, Bool.or_eq_false_iff, Bool.and_eq_false_iff, decide_eq_false_iff_not, not_lt]
  refine ⟨fun h => ⟨h.1, ?_⟩, fun h => ⟨h.1, ?_⟩⟩
  case refine_1 => have := h.2; omega
  case refine_2 => have := h.2; omega

theorem Exact.length_le (h : c.Exact) (i : Fin SHARDS) : (c.shards i).length ≤ c.openCount := by
  simpa [h.count] using le_total (fun _ => 1) c.shards i

theorem Exact.sum_le (h : c.Exact) (i : Fin SHARDS) : ((c.shards i).map Entry.bytes).sum ≤ c.openBytes :=
  h.bytes ▸ le_total Entry.bytes c.shards i

theorem Exact.replace (h : c.Exact) (hn : (l.map Entry.key).Nodup)
    (hc : n + (c.shards i).length = c.openCount + l.length)
    (hb : b + ((c.shards i).map Entry.bytes).sum = c.openBytes + (l.map Entry.bytes).sum) :
    Exact { c.setShard i l with openCount := n, openBytes := b } where
  nodup j := by
    by_cases hj : j = i
    case pos =>
      subst hj
      simpa [setShard] using hn
    case neg => simpa [setShard, hj] using h.nodup j
  count := by
    have hu := total_update (fun _ => 1) c.shards i l
    have hcount := h.count
    simp only [map_const', sum_replicate, smul_eq_mul, mul_one] at hu
    simp only [setShard]
    omega
  bytes := by
    have hu := total_update Entry.bytes c.shards i l
    have hbytes := h.bytes
    simp only [setShard]
    omega

theorem visit_perm {w : Entry R → β} (hw : ∀ e b, w { e with referenced := b } = w e) {l : List (Entry R)}
    (h : visit l = some v) :
    (l.map w).Perm ((v.1 :: v.2).map w) := by
  have hl := congrArg (map w) (takeWhile_append_dropWhile (p := (·.referenced)) (l := l))
  have hs : ((l.takeWhile (·.referenced)).map ({ · with referenced := false })).map w =
      (l.takeWhile (·.referenced)).map w := by simp [hw]
  rw [← hl, map_append, ← hs]
  rw [visit] at h
  generalize (l.takeWhile (·.referenced)).map ({ · with referenced := false }) = spared at h ⊢
  cases hd : l.dropWhile (·.referenced)
  case cons victim rest =>
    simp only [hd, Option.some.injEq] at h
    subst h
    simp
  case nil =>
    cases spared
    case nil => simp [hd] at h
    case cons =>
      simp only [hd, Option.some.injEq] at h
      subst h
      simp

theorem visit_eq_none (h : visit l = none) : l = [] := by
  rw [visit] at h
  cases hd : l.dropWhile (·.referenced)
  case cons => simp [hd] at h
  case nil =>
    cases ht : l.takeWhile (·.referenced)
    case cons => simp [hd, ht] at h
    case nil => rw [← takeWhile_append_dropWhile (p := (·.referenced)) (l := l), hd, ht]; rfl

-- What some rounds of eviction do: `n` readers leave, unless the bounds hold before.
structure Evicted (n : Nat) (c c' : Core R) : Prop where
  exact : c'.Exact
  maxOpen : c'.maxOpen = c.maxOpen
  maxBytes : c'.maxBytes = c.maxBytes
  bytes : c'.openBytes ≤ c.openBytes
  least : c.openCount ≤ c'.openCount + n
  reached : c'.Within ∨ c'.openCount + n = c.openCount

section

variable (ho : ∀ l, (order l).Perm l)

include ho

theorem Exact.evictOneShard {i : Fin SHARDS} (h : c.Exact) (he : c.evictOneShard order i = some c') :
    c'.Exact ∧ c'.maxOpen = c.maxOpen ∧ c'.maxBytes = c.maxBytes ∧ c'.openBytes ≤ c.openBytes ∧
      c'.openCount + 1 = c.openCount := by
  obtain ⟨v, hv, rfl⟩ := Option.map_eq_some_iff.mp he
  have hperm {β : Type} {w : Entry R → β} (hw : ∀ e b, w { e with referenced := b } = w e) :
      ((c.shards i).map w).Perm ((v.1 :: v.2).map w) :=
    ((ho _).symm.map w).trans (visit_perm hw hv)
  have hlen := (hperm (w := Entry.bytes) fun _ _ => rfl).length_eq
  have hbytes := (hperm (w := Entry.bytes) fun _ _ => rfl).sum_eq
  simp only [map_cons, sum_cons, length_map, length_cons] at hlen hbytes
  have hc := h.length_le i
  have hb := h.sum_le i
  refine ⟨h.replace ?_ (by omega) (by omega), rfl, rfl, Nat.sub_le _ _, ?_⟩
  case refine_1 => exact (nodup_cons.mp ((hperm (w := Entry.key) fun _ _ => rfl).nodup_iff.mp (h.nodup i))).2
  case refine_2 => dsimp only; omega

theorem Exact.within_of_none {start : Fin SHARDS} (h : c.Exact)
    (hn : ((finRange SHARDS).findSome? fun off => c.evictOneShard order (start + off)) = none) : c.Within := by
  have hempty (i : Fin SHARDS) : c.shards i = [] := by
    have hi := findSome?_eq_none_iff.mp hn (i - start) (mem_finRange _)
    have hoff : ∀ i j : Fin SHARDS, j + (i - j) = i := by decide
    rw [hoff, Core.evictOneShard, Option.map_eq_none_iff] at hi
    exact perm_nil.mp (visit_eq_none hi ▸ (ho _).symm)
  have hzero : c.openCount = 0 := by rw [h.count]; simp [total, hempty]
  exact ⟨by omega, by omega⟩

theorem Exact.evictRounds {start : Fin SHARDS} (h : c.Exact) :
    Evicted n c (Core.evictRounds order start n c) := by
  induction n generalizing c
  case zero => exact ⟨h, rfl, rfl, Nat.le_refl _, Nat.le_refl _, .inr rfl⟩
  case succ n ih =>
    rw [Core.evictRounds]
    split
    case isFalse hb =>
      exact ⟨h, rfl, rfl, Nat.le_refl _, Nat.le_add_right .., .inl (overBound_eq_false.mp (Bool.eq_false_iff.mpr hb))⟩
    split
    case h_2 hn => exact ⟨h, rfl, rfl, Nat.le_refl _, Nat.le_add_right .., .inl (h.within_of_none ho hn)⟩
    case h_1 c' he =>
      obtain ⟨off, -, he⟩ := exists_of_findSome?_eq_some he
      obtain ⟨hx, hmo, hmb, hb, hc⟩ := h.evictOneShard ho he
      have hr := ih hx
      exact ⟨hr.exact, hr.maxOpen.trans hmo, hr.maxBytes.trans hmb, hr.bytes.trans hb,
        by have := hr.least; omega, hr.reached.imp_right fun _ => by omega⟩

end

theorem evictToBound_of_within {start : Fin SHARDS} (h : c.Within) : c.evictToBound order start = c := by
  rw [evictToBound, maxSpin, evictRounds, if_neg]
  rw [overBound_eq_false.mpr h]
  decide

theorem Exact.touch (h : c.Exact) : (c.touch k).Exact := by
  have hmap {β : Type} {w : Entry R → β} (hw : ∀ e b, w { e with referenced := b } = w e) :
      ((c.shards (shardIndex k)).map fun e => if e.key = k then { e with referenced := true } else e).map w =
        (c.shards (shardIndex k)).map w := by
    rw [map_map]
    refine map_congr_left fun e _ => ?_
    rw [Function.comp_apply, apply_ite w, hw, ite_self]
  exact h.replace (hmap (w := Entry.key) (fun _ _ => rfl) ▸ h.nodup _) (by rw [length_map])
    (by rw [hmap (w := Entry.bytes) fun _ _ => rfl])

theorem Exact.insert (readerBytes : R → Nat) (reader : R) (h : c.Exact)
    (hk : Keyed.find Entry.key k (c.shards (shardIndex k)) = none) : (c.insert readerBytes k reader).Exact := by
  refine h.replace (nodup_cons.mpr ⟨?_, h.nodup _⟩) ?_ ?_
  case refine_1 =>
    rintro hm
    obtain ⟨e, he, heq⟩ := mem_map.mp hm
    exact Keyed.find_eq_none.mp hk e he heq
  case refine_2 => rw [length_cons]; omega
  case refine_3 => simp only [map_cons, sum_cons]; omega

theorem Exact.close (h : c.Exact) : (c.close k).2.Exact := by
  rw [Core.close]
  split
  case h_2 => exact h
  case h_1 e he =>
    have hlen := Keyed.sum_drop (fun _ => 1) (h.nodup _) he
    have hbytes := Keyed.sum_drop Entry.bytes (h.nodup _) he
    have hc := h.length_le (shardIndex k)
    have hb := h.sum_le (shardIndex k)
    simp only [map_const', sum_replicate, smul_eq_mul, mul_one] at hlen
    exact h.replace ((h.nodup _).sublist (filter_sublist.map _)) (by omega) (by omega)

theorem sum_doomed (w : Entry R → Nat) (p : Key → Bool) :
    ((c.doomed p).map w).sum = total w fun i => (c.shards i).filter (p ·.key) := by
  rw [doomed, map_flatMap, flatMap_def, sum_flatten, map_map, total, ← sum_ofFn, ofFn_eq_map]
  rfl

theorem Exact.purge (h : c.Exact) : (c.purge p).2.Exact where
  nodup i := (h.nodup i).sublist (filter_sublist.map _)
  count := by
    have hf := total_filter (fun _ => 1) (p ·.key) c.shards
    have hd := sum_doomed (c := c) (fun _ => 1) p
    simp only [map_const', sum_replicate, smul_eq_mul, mul_one] at hd
    simp only [Core.purge, h.count, hd]
    omega
  bytes := by
    have hf := total_filter Entry.bytes (p ·.key) c.shards
    simp only [Core.purge, h.bytes, sum_doomed]
    omega

def Manageable (c : Core R) : Prop :=
  c.openCount ≤ c.maxOpen + maxSpin ∧
    (c.maxBytes = 0 ∨ c.openBytes ≤ c.maxBytes ∨ c.openCount ≤ maxSpin + 1)

instance : Decidable c.Manageable :=
  inferInstanceAs (Decidable (_ ∧ _))

theorem Evicted.within (h : Evicted maxSpin c c') (hm : c.Manageable) : c'.Within := by
  rcases h.reached with hw | hc
  case inl => exact hw
  case inr =>
    have hb := h.bytes
    refine ⟨by rw [h.maxOpen]; have := hm.1; omega, ?_⟩
    rw [h.maxBytes]
    have := hm.2
    omega

theorem Within.of_le (h : c.Within) (ho : c'.maxOpen = c.maxOpen) (hb : c'.maxBytes = c.maxBytes)
    (hcount : c'.openCount ≤ c.openCount) (hbytes : c'.openBytes ≤ c.openBytes) : c'.Within :=
  ⟨by have := h.count; omega, by have := h.bytes; omega⟩

def Meets (readerBytes : R → Nat) (c : Core R) : Call R → Prop
  | .get k (.ok reader) => Keyed.find Entry.key k (c.shards (shardIndex k)) = none →
      (c.insert readerBytes k reader).Manageable
  | .setMaxOpen maxOpen => Manageable { c with maxOpen := max maxOpen 1 }
  | .setMaxBytes maxBytes => Manageable { c with maxBytes := maxBytes }
  | _ => True

section

variable (ho : ∀ l, (order l).Perm l)

include ho

theorem Exact.evictToBound (h : c.Exact) (start : Fin SHARDS) : Evicted maxSpin c (c.evictToBound order start) :=
  h.evictRounds ho

theorem Exact.exec (readerBytes : R → Nat) (h : c.Exact) (call : Call R) : (c.exec readerBytes order call).Exact ∧
    (c.Within → c.Meets readerBytes call → (c.exec readerBytes order call).Within) := by
  cases call
  case get k opened =>
    simp only [Core.exec, Core.get]
    split
    case h_1 => exact ⟨h.touch, fun hw _ => hw.of_le rfl rfl (Nat.le_refl _) (Nat.le_refl _)⟩
    case h_2 hk =>
      cases opened
      case error => exact ⟨h, fun hw _ => hw⟩
      case ok reader =>
        have hr := (h.insert readerBytes reader hk).evictToBound ho (shardIndex k)
        exact ⟨hr.exact, fun _ hm => hr.within (hm hk)⟩
  case close k =>
    refine ⟨h.close, fun hw _ => ?_⟩
    rw [Core.exec, Core.close]
    split
    case h_1 => exact hw.of_le rfl rfl (Nat.sub_le _ _) (Nat.sub_le _ _)
    case h_2 => exact hw
  case purge => exact ⟨h.purge, fun hw _ => hw.of_le rfl rfl (Nat.sub_le _ _) (Nat.sub_le _ _)⟩
  case setMaxOpen maxOpen =>
    have hr := Exact.evictToBound ho (c := { c with maxOpen := max maxOpen 1 }) { h with } 0
    exact ⟨hr.exact, fun _ hm => hr.within hm⟩
  case setMaxBytes maxBytes =>
    have hr := Exact.evictToBound ho (c := { c with maxBytes := maxBytes }) { h with } 0
    exact ⟨hr.exact, fun _ hm => hr.within hm⟩

theorem Exact.foldl (readerBytes : R → Nat) (h : c.Exact) (calls : List (Call R)) : (calls.foldl (Core.exec readerBytes order) c).Exact ∧
    (c.Within → Allowed (Core.exec readerBytes order) (Meets readerBytes) c calls →
      (calls.foldl (Core.exec readerBytes order) c).Within) := by
  induction calls generalizing c
  case nil => exact ⟨h, fun hw _ => hw⟩
  case cons call calls ih =>
    obtain ⟨hx, hw⟩ := h.exec ho readerBytes call
    exact ⟨(ih hx).1, fun hin ha => (ih hx).2 (hw hin ha.1) ha.2⟩

end

end Core

theorem exact_withByteBudget (maxOpen maxBytes : Nat) : (withByteBudget maxOpen maxBytes : Core R).Exact :=
  ⟨fun _ => nodup_nil, by simp [withByteBudget, total], by simp [withByteBudget, total]⟩

theorem bounds_kept (readerBytes : R → Nat) (order : List (Entry R) → List (Entry R)) (ho : ∀ l, (order l).Perm l)
    (maxOpen maxBytes : Nat) (calls : List (Call R)) :
    (calls.foldl (Core.exec readerBytes order) (withByteBudget maxOpen maxBytes)).Exact ∧
    (Allowed (Core.exec readerBytes order) (Core.Meets readerBytes) (withByteBudget maxOpen maxBytes) calls →
      (calls.foldl (Core.exec readerBytes order) (withByteBudget maxOpen maxBytes)).Within) := by
  obtain ⟨hx, hw⟩ := (exact_withByteBudget maxOpen maxBytes).foldl ho readerBytes calls
  exact ⟨hx, hw ⟨Nat.zero_le _, .inr (.inl (Nat.zero_le _))⟩⟩

theorem bounds_kept_sample :
    let calls : List (Call Unit) := [.get (0, 1) (.ok ()), .get (0, 2) (.ok ()), .get (1, 2) (.ok ()), .setMaxOpen 1]
    (calls.foldl (Core.exec (fun _ => 10) id) (withByteBudget 3 25)).Within :=
  (bounds_kept (fun _ => 10) id (fun l => .refl l) 3 25 _).2
    ⟨fun _ => by decide, fun _ => by decide, fun _ => by decide, by unfold Core.Meets; decide, trivial⟩

def gets (n : Nat) : List (Call Unit) :=
  (List.range n).map fun i => .get (0, .ofNat i) (.ok ())

theorem foldl_gets (hn : n ≤ 5000) (hc : (gets n).foldl (Core.exec (fun _ => 1) id) (withByteBudget 5000 0) = c) :
    c.openCount = n ∧ c.maxOpen = 5000 ∧ c.maxBytes = 0 ∧ ∀ i, ∀ e ∈ c.shards i, ∃ j < n, e.key = (0, .ofNat j) := by
  induction n generalizing c
  case zero => subst hc; exact ⟨rfl, rfl, rfl, nofun⟩
  case succ n ih =>
    obtain ⟨h₁, h₂, h₃, h₄⟩ := ih (by omega) rfl
    rw [gets, range_succ, map_append, foldl_append, ← gets] at hc
    generalize (gets n).foldl _ _ = d at *
    have hk : Keyed.find Entry.key (0, .ofNat n) (d.shards (shardIndex (0, .ofNat n))) = none := by
      refine Keyed.find_eq_none.mpr fun e he heq => ?_
      obtain ⟨j, hj, hkey⟩ := h₄ _ e he
      rw [hkey, Prod.mk.injEq] at heq
      have := congrArg UInt64.toNat heq.2
      simp only [UInt64.toNat_ofNat'] at this
      omega
    have hw : (d.insert (fun _ => 1) (0, .ofNat n) ()).Within := ⟨by simp [Core.insert, Core.setShard]; omega, .inl h₃⟩
    simp only [map_cons, map_nil, foldl_cons, foldl_nil, Core.exec, Core.get, hk,
      Core.evictToBound_of_within hw] at hc
    subst hc
    refine ⟨by rw [← h₁]; rfl, h₂, h₃, fun i e he => ?_⟩
    by_cases hi : i = shardIndex (0, .ofNat n)
    case neg =>
      simp only [Core.insert, Core.setShard, Function.update_of_ne hi] at he
      obtain ⟨j, hj, hkey⟩ := h₄ i e he
      exact ⟨j, by omega, hkey⟩
    subst hi
    simp only [Core.insert, Core.setShard, Function.update_self] at he
    rcases mem_cons.mp he with rfl | he
    · exact ⟨n, by omega, rfl⟩
    · obtain ⟨j, hj, hkey⟩ := h₄ _ e he
      exact ⟨j, by omega, hkey⟩

theorem setMaxOpen_gets (hn : n ≤ 5000)
    (hc : (gets n ++ [Call.setMaxOpen 1]).foldl (Core.exec (fun _ => 1) id) (withByteBudget 5000 0) = c) :
    c.maxOpen = 1 ∧ n ≤ c.openCount + Core.maxSpin := by
  have ho (l : List (Entry Unit)) : (id l).Perm l := .refl l
  have hx := ((exact_withByteBudget 5000 0).foldl ho (fun _ => 1) (gets n)).1
  obtain ⟨hcount, -⟩ := foldl_gets hn rfl
  rw [foldl_append] at hc
  generalize (gets n).foldl _ _ = d at *
  simp only [foldl_cons, foldl_nil, Core.exec, Core.setMaxOpen] at hc
  subst hc
  have hr := Core.Exact.evictToBound ho (c := { d with maxOpen := max 1 1 }) { hx with } 0
  exact ⟨hr.maxOpen, hcount.symm.le.trans hr.least⟩

-- A limit lowered far enough is not reached.
theorem setMaxOpen_not_reached :
    let c := (gets 4099 ++ [Call.setMaxOpen 1]).foldl (Core.exec (fun _ => 1) id) (withByteBudget 5000 0)
    c.maxOpen < c.openCount := by
  obtain ⟨hmax, hleast⟩ := setMaxOpen_gets (n := 4099) (by omega) rfl
  rw [Core.maxSpin] at hleast
  omega

end OndaDb.TableCache

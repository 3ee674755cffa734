import OndaDb.Lib.Last
import OndaDb.Txn.Theorems.Script

namespace OndaDb

open List

variable {K V : Type} {hash : Nat → K → Nat} {writes : List (WriteEntry K V)} {w : WriteEntry K V}

def filed (hash : Nat → K → Nat) (writes : List (WriteEntry K V)) (h i : Nat) : Bool :=
  writes[i]?.any fun w => !w.isRange && hash w.cf w.key = h

theorem filed_append (hi : i < writes.length) : filed hash (writes ++ [w]) h i = filed hash writes h i := by
  rw [filed, filed, getElem?_append_left hi]

theorem filed_append_length :
    filed hash (writes ++ [w]) h writes.length = (!w.isRange && decide (hash w.cf w.key = h)) := by
  simp [filed]

theorem filed_take (hi : i < len) : filed hash (writes.take len) h i = filed hash writes h i := by
  rw [filed, filed, getElem?_take_of_lt hi]

namespace WriteIndex

variable {i : WriteIndex}

-- The index of a buffer: for every hash the newest write, and before every write the one it hides.
structure Of (hash : Nat → K → Nat) (writes : List (WriteEntry K V)) (i : WriteIndex) : Prop where
  newest : ∀ h, i.newest.lookup h = lastBelow (filed hash writes h) writes.length
  length : i.prev.length = writes.length
  prev : ∀ h j, filed hash writes h j → i.prev[j]?.join = lastBelow (filed hash writes h) j

theorem Of.empty : Of hash ([] : List (WriteEntry K V)) .empty where
  newest := fun _ => rfl
  length := rfl
  prev := fun _ _ h => by simp [filed] at h

theorem lt_of_filed (h : filed hash writes x j) : j < writes.length := by
  by_contra hj
  rw [filed, getElem?_eq_none (Nat.le_of_not_lt hj)] at h
  cases h

theorem Of.push (hi : Of hash writes i) (w : WriteEntry K V) : Of hash (writes ++ [w]) (i.push hash w) := by
  have hbelow (h j : Nat) (hj : j ≤ writes.length) :
      lastBelow (filed hash (writes ++ [w]) h) j = lastBelow (filed hash writes h) j :=
    lastBelow_congr fun k hk => filed_append (hk.trans_le hj)
  constructor
  case newest =>
    intro h
    rw [length_append, length_singleton, lastBelow, filed_append_length, hbelow h _ le_rfl, WriteIndex.push]
    by_cases hr : w.isRange
    case pos => simpa [hr] using hi.newest h
    simp only [hr, Bool.false_eq_true, if_false, Bool.not_false, Bool.true_and, decide_eq_true_eq]
    rw [Map.lookup_insert_eq, hi.length, hi.newest h]
    simp only [eq_comm]
  case length =>
    rw [WriteIndex.push]
    split <;> simp [hi.length]
  case prev =>
    intro h j hj
    have hle : j ≤ writes.length := by
      have := lt_of_filed hj
      rw [length_append, length_singleton] at this
      omega
    rw [hbelow h j hle]
    by_cases hlt : j < writes.length
    case pos =>
      rw [filed_append hlt] at hj
      rw [← hi.prev h j hj, WriteIndex.push]
      split <;> simp [getElem?_append_left, hi.length, hlt]
    have hj' : j = writes.length := by omega
    subst hj'
    rw [filed_append_length, Bool.and_eq_true, decide_eq_true_eq] at hj
    rw [WriteIndex.push, if_neg (by simpa using hj.1), hj.2, ← hi.newest h]
    simp [← hi.length]

theorem Of.build (hash : Nat → K → Nat) (writes : List (WriteEntry K V)) : Of hash writes (.build hash writes) := by
  induction writes using reverseRecOn
  case nil => exact .empty
  case append_singleton writes w ih =>
    rw [WriteIndex.build, foldl_append]
    exact ih.push w

theorem Of.unwind (hi : Of hash writes i) (hm : writes[m]? = some w) {newest : Map Nat Nat}
    (hn : ∀ h, newest.lookup h = lastBelow (filed hash writes h) (m + 1)) (h : Nat) :
    (WriteIndex.unwind hash i.prev newest m w).lookup h = lastBelow (filed hash writes h) m := by
  have hfiled (x : Nat) : filed hash writes x m = (!w.isRange && decide (hash w.cf w.key = x)) := by
    rw [filed, hm]
    rfl
  have hnh := hn h
  rw [lastBelow, hfiled] at hnh
  rw [WriteIndex.unwind]
  by_cases hr : w.isRange
  case pos => simpa [hr] using hnh
  rw [if_neg hr]
  have hprev := hi.prev (hash w.cf w.key) m (by rw [hfiled]; simpa using hr)
  by_cases hh : h = hash w.cf w.key
  case pos =>
    subst hh
    cases hp : i.prev[m]?.join with
    | none => rw [← hprev, hp]; exact (Map.lookup_erase_eq ..).trans (if_pos rfl)
    | some p => rw [← hprev, hp]; exact (Map.lookup_insert_eq ..).trans (if_pos rfl)
  rw [if_neg (by simp [Ne.symm hh])] at hnh
  cases i.prev[m]?.join with
  | none => exact ((Map.lookup_erase_eq ..).trans (if_neg hh)).trans hnh
  | some p => exact ((Map.lookup_insert_eq ..).trans (if_neg hh)).trans hnh

theorem Of.foldl_unwind (hi : Of hash writes i) (hm : m ≤ writes.length) (h : Nat) :
    ((writes.zipIdx.drop m).reverse.foldl (fun newest w => WriteIndex.unwind hash i.prev newest w.2 w.1) i.newest).lookup h =
      lastBelow (filed hash writes h) m := by
  induction hm using Nat.decreasingInduction generalizing h
  case self =>
    rw [drop_of_length_le (by simp)]
    exact hi.newest h
  case of_succ m hm ih =>
    have hdrop : writes.zipIdx.drop m = (writes[m], m) :: writes.zipIdx.drop (m + 1) := by
      rw [drop_eq_getElem_cons (by simpa using hm)]
      simp
    rw [hdrop, reverse_cons, foldl_append]
    exact hi.unwind (getElem?_eq_getElem hm) ih h

theorem Of.truncate (hi : Of hash writes i) (len : Nat) :
    Of hash (writes.take len) (i.truncate hash writes len) := by
  have hbelow (h j : Nat) (hj : j ≤ len) :
      lastBelow (filed hash (writes.take len) h) j = lastBelow (filed hash writes h) j :=
    lastBelow_congr fun k hk => filed_take (hk.trans_le hj)
  constructor
  case newest =>
    intro h
    rw [length_take, hbelow h _ (Nat.min_le_left ..), WriteIndex.truncate]
    by_cases hlen : len ≤ writes.length
    case pos =>
      rw [Nat.min_eq_left hlen]
      exact hi.foldl_unwind hlen h
    rw [Nat.min_eq_right (by omega), drop_of_length_le (by simp; omega)]
    exact hi.newest h
  case length => rw [WriteIndex.truncate, length_take, length_take, hi.length]
  case prev =>
    intro h j hj
    have hlt : j < len := by
      have := lt_of_filed hj
      rw [length_take] at this
      omega
    rw [hbelow h j hlt.le, WriteIndex.truncate, getElem?_take_of_lt hlt]
    exact hi.prev h j (by rwa [filed_take hlt] at hj)

theorem Of.walk (hi : Of hash writes i) (hf : ∀ j, found j → filed hash writes h j) (hfuel : n ≤ fuel) :
    WriteIndex.walk i.prev found fuel (lastBelow (filed hash writes h) n) = lastBelow found n := by
  induction n generalizing fuel
  case zero => cases fuel <;> rfl
  case succ n ih =>
    rw [lastBelow, lastBelow]
    by_cases hn : filed hash writes h n
    case pos =>
      obtain ⟨fuel, rfl⟩ := Nat.exists_eq_add_of_lt (Nat.lt_of_lt_of_le n.succ_pos hfuel)
      rw [if_pos hn, Nat.zero_add, WriteIndex.walk, hi.prev h n hn, ih (by omega)]
    rw [if_neg hn, if_neg fun h => hn (hf n h)]
    exact ih (by omega)

end WriteIndex

namespace Txn

variable {t t' : Txn K V}

def Indexed (hash : Nat → K → Nat) (t : Txn K V) : Prop :=
  ∀ i ∈ t.writeIndex, i.Of hash t.writes

theorem Indexed.congr (h : t.Indexed hash) (hw : t'.writes = t.writes) (hi : t'.writeIndex = t.writeIndex) :
    t'.Indexed hash := by
  rwa [Indexed, hw, hi]

theorem Indexed.pushWrite (h : t.Indexed hash) (w : WriteEntry K V) : (t.pushWrite hash w).Indexed hash := by
  intro i hi
  obtain ⟨j, hj, rfl⟩ := Option.map_eq_some_iff.mp hi
  exact (h j hj).push w

theorem Indexed.ensureWriteIndex (h : t.Indexed hash) : (t.ensureWriteIndex hash).Indexed hash := by
  rw [Txn.ensureWriteIndex]
  split
  case isTrue =>
    intro i hi
    cases hi
    exact .build hash t.writes
  case isFalse => exact h

theorem Indexed.rollbackToSavepoint (h : t.Indexed hash) (ht : t.rollbackToSavepoint hash name = .ok t') :
    t'.Indexed hash := by
  rw [Txn.rollbackToSavepoint] at ht
  cases hp : t.findSavepoint name with
  | error e => rw [hp] at ht; cases ht
  | ok pos =>
    rw [hp] at ht
    cases ht
    intro i hi
    obtain ⟨j, hj, rfl⟩ := Option.map_eq_some_iff.mp hi
    exact (h j hj).truncate _

theorem Indexed.releaseSavepoint (h : t.Indexed hash) (ht : t.releaseSavepoint name = .ok t') : t'.Indexed hash := by
  rw [Txn.releaseSavepoint] at ht
  cases hp : t.findSavepoint name with
  | error e => rw [hp] at ht; cases ht
  | ok pos => rw [hp] at ht; cases ht; exact h.congr rfl rfl

variable [LinearOrder K]

theorem filed_of_writes (h : writes[j]?.any (·.writes cf key)) :
    filed hash writes (hash cf key) j := by
  rw [filed]
  cases hw : writes[j]? with
  | none => rw [hw] at h; cases h
  | some w =>
    rw [hw] at h
    obtain ⟨cf', op⟩ := w
    cases op
    case range => cases h
    case point =>
      simp only [Option.any_some, WriteEntry.writes, decide_eq_true_eq] at h
      simp [WriteEntry.isRange, WriteEntry.key, h.1, h.2]

def scanning (t : Txn K V) : Txn K V :=
  { t with writeIndex := none }

theorem Indexed.newestPointWrite (h : t.Indexed hash) (cf : Nat) (key : K) :
    t.newestPointWrite hash cf key = t.scanning.newestPointWrite hash cf key := by
  have hscan : t.scanning.newestPointWrite hash cf key =
      lastBelow (fun i => t.writes[i]?.any (·.writes cf key)) t.writes.length := find?_reverse_range ..
  rw [hscan, Txn.newestPointWrite]
  split
  case h_1 i hi =>
    have hof := h i hi
    rw [hof.newest, ← hof.length]
    exact hof.walk (fun j => filed_of_writes) le_rfl
  case h_2 => exact find?_reverse_range ..

theorem Indexed.noteStoreRead (h : t.Indexed hash) (floor cf : Nat) (key : K) :
    (t.noteStoreRead floor cf key).1.Indexed hash := by
  rw [Txn.noteStoreRead]
  dsimp only
  split
  case isTrue => exact h.congr rfl rfl
  case isFalse => exact h

variable [Inhabited V]

def chainBelow (t : Txn K V) (cf : Nat) (key : K) (n : Nat) : Option (BufferedChain V) :=
  ((t.writes.take n).filter (·.writes cf key)).foldl BufferedChain.step none

theorem chainBelow_succ (hw : t.writes[n]? = some w) : t.chainBelow cf key (n + 1) =
    if w.writes cf key then BufferedChain.step (t.chainBelow cf key n) w else t.chainBelow cf key n := by
  rw [chainBelow, chainBelow, take_add_one, hw, Option.toList_some, filter_append, foldl_append]
  by_cases h : w.writes cf key <;> simp [h]

theorem collect_eq {i : WriteIndex} (hi : i.Of hash t.writes) (hn : n ≤ t.writes.length) (hfuel : n ≤ fuel)
    (cf : Nat) (key : K) :
    indexedChain.collect t i.prev cf key fuel (lastBelow (filed hash t.writes (hash cf key)) n) =
      t.chainBelow cf key n := by
  induction n generalizing fuel
  case zero => cases fuel <;> rfl
  case succ n ih =>
    obtain ⟨w, hw⟩ : ∃ w, t.writes[n]? = some w := ⟨_, getElem?_eq_getElem hn⟩
    rw [lastBelow, chainBelow_succ hw]
    by_cases hf : filed hash t.writes (hash cf key) n
    case pos =>
      obtain ⟨fuel, rfl⟩ := Nat.exists_eq_add_of_lt (Nat.lt_of_lt_of_le n.succ_pos hfuel)
      rw [if_pos hf, Nat.zero_add, indexedChain.collect, hw, hi.prev _ n hf, ih (by omega) (by omega)]
      by_cases hk : w.writes cf key
      case neg => simp [hk]
      case pos => by_cases hm : w.isMerge <;> by_cases ht : w.tombstone <;> simp [hk, hm, ht, BufferedChain.step]
    have hk : ¬w.writes cf key := fun hk => hf (filed_of_writes (by rw [hw]; exact hk))
    rw [if_neg hf, if_neg hk]
    exact ih (by omega) (by omega)

theorem Indexed.bufferedChain (h : t.Indexed hash) (cf : Nat) (key : K) :
    t.bufferedChain hash cf key = t.scanning.bufferedChain hash cf key := by
  have hscan : t.scanning.bufferedChain hash cf key = t.chainBelow cf key t.writes.length := by
    rw [chainBelow, take_length]
    rfl
  rw [hscan, Txn.bufferedChain]
  split
  case h_1 i hi =>
    have hof := h i hi
    rw [indexedChain, hof.newest, ← hof.length]
    exact collect_eq hof hof.length.le le_rfl cf key
  case h_2 => rw [chainBelow, take_length]

theorem Indexed.planPointRead (h : t.Indexed hash) (floor cf : Nat) (key : K) :
    (t.planPointRead hash floor cf key).1.Indexed hash := by
  rw [Txn.planPointRead]
  split
  · split <;> exact h
  · split
    · exact h
    · exact h.noteStoreRead floor cf key

theorem Indexed.get (h : t.Indexed hash) (store : StoreRead K V) (floor : Nat) (cf : Family K V) (key : K) :
    (t.get hash store floor cf key).1.Indexed hash := by
  have he := h.ensureWriteIndex
  rw [Txn.get]
  generalize t.ensureWriteIndex hash = u at he
  have hplain : (finishRead store key (u.planPointRead hash floor cf.id key)).1.Indexed hash := by
    rw [finishRead_fst]
    exact he.planPointRead floor cf.id key
  split
  · exact hplain
  · split
    · exact hplain
    · split
      · split <;> exact he
      · exact he.noteStoreRead floor cf.id key

theorem Indexed.getInto (h : t.Indexed hash) (store : StoreRead K V) (bytes : V → List UInt8) (floor : Nat)
    (cf : Family K V) (key : K) (out : List UInt8) :
    (t.getInto hash store bytes floor cf key out).1.Indexed hash := by
  have he := h.ensureWriteIndex
  rw [Txn.getInto]
  generalize t.ensureWriteIndex hash = u at he
  dsimp only
  split
  case isTrue =>
    have hg := he.get store floor cf key
    generalize u.get hash store floor cf key = p at hg
    obtain ⟨u', r⟩ := p
    cases r <;> exact hg
  have hp := he.planPointRead floor cf.id key
  rw [← finishRead_fst (k := key)] at hp
  generalize finishRead store key (u.planPointRead hash floor cf.id key) = p at hp
  obtain ⟨u', r⟩ := p
  cases r <;> exact hp

theorem Indexed.multiGet_plan (h : t.Indexed hash) (floor cf : Nat) (keys : List K) :
    (multiGet.plan hash floor cf t keys).1.Indexed hash := by
  induction keys generalizing t
  case nil => exact h
  case cons key keys ih =>
    have hp := ih (h.planPointRead floor cf key)
    rw [multiGet.plan]
    split <;> rename_i heq <;> rw [heq] at hp <;> exact hp

theorem Indexed.multiGet_each (h : t.Indexed hash) (store : StoreRead K V) (floor : Nat) (cf : Family K V)
    (keys : List K) : (multiGet.each hash store floor cf t keys).1.Indexed hash := by
  induction keys generalizing t
  case nil => exact h
  case cons key keys ih => exact ih (h.get store floor cf key)

theorem Indexed.multiGet (h : t.Indexed hash) (store : StoreRead K V) (floor : Nat) (cf : Family K V)
    (keys : List K) : (t.multiGet hash store floor cf keys).1.Indexed hash := by
  rw [Txn.multiGet]
  dsimp only
  split
  case isTrue => exact h.ensureWriteIndex.multiGet_each store floor cf keys
  case isFalse => exact h.ensureWriteIndex.multiGet_plan floor cf.id keys

variable [Repr K] {env : Env K V}

theorem Indexed.call (h : t.Indexed env.hash) (ht : t.call env store floor c = .ok t') :
    t'.Indexed env.hash := by
  cases c
  case put | delete | singleDelete => exact buffer_eq_ok ht ▸ h.pushWrite _
  case merge => exact (merge_eq_ok ht).2 ▸ h.pushWrite _
  case deleteRange => exact (deleteRange_eq_ok ht).2 ▸ h.pushWrite _
  case setSavepoint => exact Except.ok.inj ht ▸ h.congr rfl rfl
  case rollbackToSavepoint => exact h.rollbackToSavepoint ht
  case releaseSavepoint => exact h.releaseSavepoint ht
  case get => exact Except.ok.inj ht ▸ h.get _ _ _ _

theorem Called.run (h : t.Called env) (hr : t.run env store floor calls = .ok t') : t'.Called env := by
  induction calls generalizing t
  case nil =>
    obtain rfl : t = t' := Except.ok.inj hr
    exact h
  case cons c calls ih =>
    rw [Txn.run, foldlM_cons] at hr
    cases hc : t.call env store floor c
    case error => simp [hc, bind, Except.bind] at hr
    case ok u =>
      simp only [hc, bind, Except.bind] at hr
      exact ih (h.call hc) hr

end Txn

end OndaDb

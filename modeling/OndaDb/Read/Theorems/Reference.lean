import OndaDb.Read.Reference

namespace OndaDb

open List

variable {K V : Type}

def ChainVersion.link [Inhabited V] (v : ChainVersion V) : Link V :=
  if v.merge then .operand (v.value.getD default) else .base v.value

def MergeOperator.Folds (op : MergeOperator K V) (key : K) (f : Option V → V → V) : Prop :=
  ∀ e xs, xs ≠ [] → some (op.fullMerge key e xs) = xs.foldl (fun e x => some (f e x)) e

theorem MergeOperator.Associative.folds {op : MergeOperator K V} (h : op.Associative) (key : K) :
    op.Folds key fun e x => op.fullMerge key e [x] := by
  intro e xs hne
  induction xs using reverseRecOn
  case nil => exact absurd rfl hne
  case append_singleton xs x hi =>
    match xs with
    | [] => rfl
    | y :: ys => rw [h _ _ _ _ (by simp) (by simp), foldl_append, ← hi (by simp)]; rfl

section foldChain

variable {f : Option V → V → V}

theorem find?_orderedInsert {l : List (ChainVersion V)} :
    (l.orderedInsert (fun v w => w.seq ≤ v.seq) a).find? (·.seq = s) = (a :: l).find? (·.seq = s) := by
  induction l
  case nil => rfl
  case cons b l hi =>
    rw [orderedInsert]
    split
    case isTrue => rfl
    case isFalse hab =>
      simp only [find?_cons] at hi ⊢
      rw [hi]
      by_cases ha : a.seq = s <;> by_cases hb : b.seq = s <;> simp [ha, hb]
      omega

theorem find?_insertionSort {l : List (ChainVersion V)} :
    (l.insertionSort fun v w => w.seq ≤ v.seq).find? (·.seq = s) = l.find? (·.seq = s) := by
  induction l
  case nil => rfl
  case cons a l hi => rw [insertionSort_cons, find?_orderedInsert, find?_cons, hi, find?_cons]

variable [Inhabited V]

def chainHistory (l : List (ChainVersion V)) : History V :=
  fun s => (l.find? (·.seq = s)).map ChainVersion.link

theorem chainHistory_cons_ne (h : v.seq ≠ s) : chainHistory (v :: l) s = chainHistory (V := V) l s := by
  simp [chainHistory, h]

theorem collect_eq_chain {l : List (ChainVersion V)} (hs : l.Pairwise fun v w => w.seq ≤ v.seq)
    (hn : ∀ v ∈ l, v.seq < n ∨ v.seq = n ∧ last = some n) (hl : ∀ t ∈ last, t = n) :
    ChainVersion.collect last l = ((History.chain (chainHistory l) n).1,
      (History.chain (chainHistory l) n).2.join) := by
  induction l generalizing n last
  case nil =>
    rw [History.chain_eq_of_none (Nat.zero_le _) (by simp [chainHistory])]
    rfl
  case cons v l hi =>
    obtain ⟨hv, hs⟩ := pairwise_cons.mp hs
    have hnv := hn v (by simp)
    rw [ChainVersion.collect]
    split
    case isTrue he =>
      have := hl _ he
      have hc : History.chain (chainHistory (v :: l)) n = History.chain (chainHistory l) n :=
        History.chain_congr fun s hsn => chainHistory_cons_ne (by omega)
      rw [hi hs (fun w hw => hn w (mem_cons_of_mem _ hw)) hl, hc]
    case isFalse he =>
      have hlt : v.seq < n := hnv.resolve_right fun h => he (h.1 ▸ h.2)
      have hlink : chainHistory (v :: l) v.seq = some v.link := by simp [chainHistory]
      have hnone : ∀ s, v.seq + 1 ≤ s → s < n → chainHistory (v :: l) s = none := by
        intro s h₁ _
        simp only [chainHistory, Option.map_eq_none_iff, find?_eq_none, mem_cons,
          decide_eq_true_eq]
        rintro w (rfl | hw)
        · omega
        · have := hv w hw
          omega
      rw [History.chain_eq_of_none hlt hnone]
      cases hm : v.merge
      case false =>
        rw [ChainVersion.link, if_neg (by simp [hm])] at hlink
        rw [History.chain_succ_base hlink]
        simp
      case true =>
        have hw : ∀ w ∈ l, w.seq < v.seq ∨ w.seq = v.seq ∧ some v.seq = some v.seq :=
          fun w hw => (hv w hw).lt_or_eq.imp_right (⟨·, rfl⟩)
        rw [ChainVersion.link, if_pos hm] at hlink
        have hc : History.chain (chainHistory (v :: l)) v.seq = History.chain (chainHistory l) v.seq :=
          History.chain_congr fun s hsn => chainHistory_cons_ne (by omega)
        rw [History.chain_succ_operand hlink, hi hs hw (by simp), hc]
        simp

theorem foldChain_eq_chain {op : MergeOperator K V} (hn : ∀ v ∈ l, v.seq < n) :
    foldChain op key l = op.resolve key (History.chain (chainHistory l) n).1
      (History.chain (chainHistory l) n).2.join := by
  have hs := l.pairwise_insertionSort fun v w => w.seq ≤ v.seq
  have hh : chainHistory (l.insertionSort fun v w => w.seq ≤ v.seq) = chainHistory l := by
    funext s
    rw [chainHistory, find?_insertionSort, chainHistory]
  have hl : ∀ v ∈ l.insertionSort fun v w => w.seq ≤ v.seq, v.seq < n ∨ v.seq = n ∧ none = some n :=
    fun v hv => .inl (hn v (mem_insertionSort _ |>.mp hv))
  rw [foldChain, collect_eq_chain hs hl (by simp), hh]

omit [Inhabited V] in
theorem MergeOperator.Folds.resolve_eq_below {op : MergeOperator K V} (hop : op.Folds key f) :
    op.resolve key (History.chain H n).1 (History.chain H n).2.join =
      History.below f H none n := by
  rw [History.below_eq_chain, MergeOperator.resolve]
  generalize History.chain H n = c
  cases hc : c.1
  case nil => cases c.2 <;> rfl
  case cons x xs =>
    rw [if_neg (by simp), hop _ _ (by simp), foldl_reverse]
    cases c.2 <;> rfl

end foldChain

namespace Data

variable {d d₁ d₂ : Data K V}

@[simp]
theorem versions_append : (d₁ ++ d₂).versions = d₁.versions ++ d₂.versions := rfl

@[simp]
theorem fragments_append : (d₁ ++ d₂).fragments = d₁.fragments ++ d₂.fragments := rfl

@[simp]
theorem empty_append : Data.empty ++ d = d := rfl

@[simp]
theorem append_empty : d ++ Data.empty = d :=
  congrArg₂ Data.mk d.versions.append_nil d.fragments.append_nil

variable [LinearOrder K]

theorem newestCover_newest (d : Data K V) (k : K) (r : Nat) :
    Newest (Covered d.fragments k) r (d.newestCover k r) := by
  unfold newestCover
  generalize hl : ((d.fragments.filter (·.Contains k)).flatMap Fragment.seqs).filter (· ≤ r) = l
  have hmem : ∀ s, s ∈ l ↔ Covered d.fragments k s ∧ s ≤ r := by
    intro s
    simp [← hl, Covered, and_assoc]
  cases hm : l.max?
  case none =>
    simp only [max?_eq_none_iff] at hm
    exact fun s hs hc => by simpa [hm] using (hmem s).mpr ⟨hc, hs⟩
  case some c =>
    obtain ⟨h₁, h₂⟩ := max?_eq_some_iff.mp hm
    obtain ⟨hc, hr⟩ := (hmem c).mp h₁
    exact ⟨hc, hr, fun s hs h => h₂ s ((hmem s).mpr ⟨h, hs⟩)⟩

def HasSeq (d : Data K V) (k : K) (s : Nat) : Prop :=
  (∃ v ∈ d.versions, v.key = k ∧ v.seq = s) ∨ Covered d.fragments k s

theorem version_eq_none : d.version k s = none ↔ ∀ v ∈ d.versions, v.key = k → v.seq ≠ s := by
  simp [version]

theorem mem_of_version (h : d.version k s = some v) : v ∈ d.versions ∧ v.key = k ∧ v.seq = s :=
  ⟨mem_of_find?_eq_some h, by simpa using find?_some h⟩

theorem history_of_version (h : d.version k s = some v) :
    d.history now k s = some (v.link now) := by
  simp [history, h]

theorem history_of_not_mem (h : ∀ v ∈ d.versions, v.key = k → v.seq ≠ s) :
    d.history now k s = if Covered d.fragments k s then some (.base none) else none := by
  simp [history, version_eq_none.mpr h]

theorem hasSeq_of_history (h : d.history now k s ≠ none) : d.HasSeq k s := by
  by_contra hc
  simp only [HasSeq, not_or, not_exists, not_and] at hc
  exact h (by rw [history_of_not_mem hc.1, if_neg hc.2])

def Newer (d₁ d₂ : Data K V) (k : K) : Prop :=
  ∀ s t, d₁.HasSeq k s → d₂.HasSeq k t → t < s

theorem history_append (h : d₁.Newer d₂ k) :
    (d₁ ++ d₂).history now k = (d₁.history now k).layer (d₂.history now k) := by
  funext s
  have hc : Covered (d₁ ++ d₂).fragments k s ↔ Covered d₁.fragments k s ∨ Covered d₂.fragments k s :=
    covered_append
  have hv : (d₁ ++ d₂).version k s = (d₁.version k s).or (d₂.version k s) :=
    find?_append
  simp only [history, History.layer, hc, hv, Option.map_or, Option.or_assoc]
  congr 1
  by_cases h₁ : Covered d₁.fragments k s
  case pos =>
    -- No version of the older data shares the sequence of a newer range tombstone.
    have : d₂.version k s = none := version_eq_none.mpr fun v hv hk hs =>
      lt_irrefl _ (h s s (.inr h₁) (.inl ⟨v, hv, hk, hs⟩))
    simp [h₁, this]
  case neg => simp [h₁]

theorem hasSeq_append : (d₁ ++ d₂).HasSeq k s ↔ d₁.HasSeq k s ∨ d₂.HasSeq k s := by
  simp only [HasSeq, versions_append, fragments_append, covered_append, mem_append, or_and_right,
    exists_or]
  exact or_or_or_comm ..

theorem not_hasSeq_empty : ¬(Data.empty : Data K V).HasSeq k s := by
  simp [HasSeq, Data.empty]

theorem newer_empty : d.Newer .empty k :=
  fun _ _ _ h => absurd h not_hasSeq_empty

theorem empty_newer : Data.empty.Newer d k :=
  fun _ _ h => absurd h not_hasSeq_empty

theorem below_append (h : d₁.Newer d₂ k) :
    History.below f ((d₁ ++ d₂).history now k) e n =
      History.below f (d₁.history now k) (History.below f (d₂.history now k) e n) n := by
  rw [history_append h]
  exact History.below_layer fun s t hs ht => h s t (hasSeq_of_history hs) (hasSeq_of_history ht)

theorem mem_visible : v ∈ d.visible k r ↔ v ∈ d.versions ∧ v.key = k ∧ v.seq ≤ r := by
  simp [visible]

theorem version_of_newest (h : d.newest k r = some v) :
    d.version k v.seq = some v ∧ v.seq ≤ r ∧
    ∀ w ∈ d.versions, w.key = k → w.seq ≤ r → w.seq ≤ v.seq := by
  have hv := find?_some h
  have hmem := mem_visible.mp (mem_of_find?_eq_some h)
  simp only [all_eq_true, decide_eq_true_eq] at hv
  refine ⟨?_, hmem.2.2, fun w hw hk hr => hv w (mem_visible.mpr ⟨hw, hk, hr⟩)⟩
  rw [newest, visible, find?_filter] at h
  rw [← h, version]
  refine find?_congr fun w hw => ?_
  rw [Bool.eq_iff_iff]
  simp only [decide_eq_true_eq, all_eq_true]
  constructor
  · exact fun ⟨hk, hs⟩ => ⟨⟨hk, hs ▸ hmem.2.2⟩, fun u hu => hs ▸ hv u hu⟩
  · exact fun ⟨⟨hk, hr⟩, hall⟩ => ⟨hk, le_antisymm (hv w (mem_visible.mpr ⟨hw, hk, hr⟩))
      (hall v (mem_visible.mpr hmem))⟩

theorem newest_eq_none (h : d.newest k r = none) : ∀ v ∈ d.versions, v.key = k → ¬v.seq ≤ r := by
  intro v hv hk hr
  have hmem : v.seq ∈ (d.visible k r).map Version.seq :=
    mem_map.mpr ⟨v, mem_visible.mpr ⟨hv, hk, hr⟩, rfl⟩
  cases hm : ((d.visible k r).map Version.seq).max?
  case none => simp [max?_eq_none_iff.mp hm] at hmem
  case some m =>
    obtain ⟨h₁, h₂⟩ := max?_eq_some_iff.mp hm
    obtain ⟨w, hw, he⟩ := mem_map.mp h₁
    have := find?_eq_none.mp h w hw
    simp only [all_eq_true, decide_eq_true_eq] at this
    exact this fun u hu => he ▸ h₂ u.seq (mem_map.mpr ⟨u, hu, rfl⟩)

def MergeFree (d : Data K V) (k : K) : Prop :=
  ∀ v ∈ d.versions, v.key = k → ¬v.isMerge

omit [LinearOrder K] in
theorem mergeFree_empty : (Data.empty : Data K V).MergeFree k := by
  simp [MergeFree, Data.empty]

theorem pointRead_eq_below (hm : d.MergeFree k) :
    d.pointRead k r now = History.below f (d.history now k) none (r + 1) := by
  have hc := d.newestCover_newest k r
  unfold pointRead
  split
  case h_1 hn =>
    refine (History.below_eq_none fun s hs l hl => ?_).symm
    rw [history_of_not_mem fun v hv hk he => newest_eq_none hn v hv hk (by omega)] at hl
    split at hl <;> simp_all
  case h_2 v hn =>
    obtain ⟨hv, hr, hmax⟩ := version_of_newest hn
    have hlink : d.history now k v.seq =
        some (.base (if v.tombstone || v.expired now then none else some v.value)) := by
      obtain ⟨hmem, hk, _⟩ := mem_of_version hv
      rw [history_of_version hv, Version.link, if_neg (hm v hmem hk)]
    have habove : ∀ s, v.seq < s → s < r + 1 → d.history now k s =
        if Covered d.fragments k s then some (.base none) else none :=
      fun s h₁ h₂ => history_of_not_mem fun w hw hk he => by
        have := hmax w hw hk (by omega)
        omega
    cases hcov : d.newestCover k r with
    | none =>
      rw [hcov] at hc
      have hnone : ∀ s, v.seq < s → s < r + 1 → d.history now k s = none := fun s h₁ h₂ => by
        rw [habove s h₁ h₂, if_neg (hc s (by omega))]
      rw [History.below_base hlink (by omega) hnone]
      simp
    | some c =>
      rw [hcov] at hc
      by_cases hlt : v.seq < c
      case pos =>
        have hbase : d.history now k c = some (.base none) := by
          rw [habove c hlt (by have := hc.2.1; omega), if_pos hc.1]
        rw [History.below_base hbase (by have := hc.2.1; omega)]
        · simp [hlt]
        · intro s h₁ h₂
          rw [habove s (by omega) h₂, if_neg fun h => ?_]
          have := hc.2.2 s (by omega) h
          omega
      rw [History.below_base hlink (by omega)]
      · simp [hlt]
      · intro s h₁ h₂
        rw [habove s h₁ h₂, if_neg fun h => ?_]
        have := hc.2.2 s (by omega) h
        omega

def Untied (d : Data K V) (k : K) : Prop :=
  ∀ v ∈ d.versions, v.key = k → ¬Covered d.fragments k v.seq

theorem untied_empty : (Data.empty : Data K V).Untied k := by
  simp [Untied, Data.empty]

theorem Untied.append (h₁ : d₁.Untied k) (h₂ : d₂.Untied k) (h : d₁.Newer d₂ k) :
    (d₁ ++ d₂).Untied k := by
  intro v hv hk hc
  rcases mem_append.mp hv with hv | hv <;> rcases covered_append.mp hc with hc | hc
  · exact h₁ v hv hk hc
  · exact lt_irrefl _ (h _ _ (.inl ⟨v, hv, hk, rfl⟩) (.inr hc))
  · exact lt_irrefl _ (h _ _ (.inr hc) (.inl ⟨v, hv, hk, rfl⟩))
  · exact h₂ v hv hk hc

omit [LinearOrder K] in
theorem link_ofVersion [Inhabited V] (now : Int) (v : Version K V) :
    (ChainVersion.ofVersion now v).link = v.link now := by
  cases hm : v.isMerge <;> simp [ChainVersion.link, ChainVersion.ofVersion, Version.link, hm]

-- What a folding read resolves: the newest cover it sees, then the versions.
def readHistory (d : Data K V) (now : Int) (k : K) (r : Nat) : History V := fun s =>
  if d.newestCover k r = some s then some (.base none) else (d.version k s).map (Version.link now)

theorem mergedRead_eq_chain [Inhabited V] (op : MergeOperator K V) (d : Data K V) (k : K) (r : Nat)
    (now : Int) :
    d.mergedRead op k r now = op.resolve k (History.chain (d.readHistory now k r) (r + 1)).1
      (History.chain (d.readHistory now k r) (r + 1)).2.join := by
  have hc := d.newestCover_newest k r
  have hvis : ∀ s ≤ r, chainHistory ((d.visible k r).map (ChainVersion.ofVersion now)) s =
      (d.version k s).map (Version.link now) := by
    intro s hs
    have hfind : (d.visible k r).find? (fun v => (ChainVersion.ofVersion now v).seq = s) =
        d.version k s := by
      rw [visible, find?_filter, version]
      refine find?_congr fun v _ => ?_
      rw [Bool.eq_iff_iff]
      simp only [ChainVersion.ofVersion, decide_eq_true_eq]
      exact ⟨fun h => ⟨h.1.1, of_decide_eq_true h.2⟩,
        fun h => ⟨⟨h.1, h.2 ▸ hs⟩, decide_eq_true h.2⟩⟩
    rw [chainHistory, find?_map, Option.map_map, ← hfind]
    exact Option.map_congr fun v _ => link_ofVersion now v
  have hlt : ∀ v ∈ (d.newestCover k r).toList.map ChainVersion.rangeFloor ++
      (d.visible k r).map (ChainVersion.ofVersion now), v.seq < r + 1 := by
    intro v hv
    rcases mem_append.mp hv with hv | hv <;> obtain ⟨w, hw, he⟩ := mem_map.mp hv <;> subst he
    · rw [Option.mem_toList] at hw
      rw [hw] at hc
      exact Nat.lt_succ_of_le hc.2.1
    · exact Nat.lt_succ_of_le (mem_visible.mp hw).2.2
  have hhist : ∀ s < r + 1, chainHistory ((d.newestCover k r).toList.map ChainVersion.rangeFloor ++
      (d.visible k r).map (ChainVersion.ofVersion now)) s = d.readHistory now k r s := by
    intro s hs
    rw [readHistory]
    cases hcov : d.newestCover k r
    case none => simp [hvis s (by omega)]
    case some c =>
      by_cases hsc : c = s
      case pos => simp [chainHistory, ChainVersion.link, ChainVersion.rangeFloor, hsc]
      rw [Option.toList_some, map_singleton, singleton_append,
        chainHistory_cons_ne (by simpa [ChainVersion.rangeFloor] using hsc), hvis s (by omega),
        if_neg (by simpa using hsc)]
  rw [mergedRead, foldChain_eq_chain hlt, History.chain_congr hhist]

theorem chain_readHistory (ht : d.Untied k) :
    History.chain (d.readHistory now k r) (r + 1) = History.chain (d.history now k) (r + 1) := by
  have hc := d.newestCover_newest k r
  cases hcov : d.newestCover k r
  case none =>
    rw [hcov] at hc
    refine History.chain_congr fun s hs => ?_
    simp [readHistory, hcov, history, hc s (by omega)]
  case some c =>
    rw [hcov] at hc
    have hv : d.version k c = none := version_eq_none.mpr fun v hv hk hs =>
      ht v hv hk (hs ▸ hc.1)
    refine History.chain_congr_base (s := c) (b := none) (by simp [readHistory, hcov])
      (Nat.lt_succ_of_le hc.2.1) fun t h₁ h₂ => ?_
    rcases h₁.eq_or_lt with rfl | h₁
    case inl => simp [readHistory, hcov, history, hv, hc.1]
    case inr =>
      have hnc : ¬Covered d.fragments k t := fun h => by
        have := hc.2.2 t (by omega) h
        omega
      simp [readHistory, hcov, h₁.ne, history, hnc]

theorem chain_mergeFree (hm : d.MergeFree k) : (History.chain (d.history now k) n).1 = [] := by
  induction n
  case zero => rfl
  case succ n hi =>
    cases hl : d.history now k n
    case none => rw [History.chain_succ_none hl, hi]
    case some l =>
      cases l
      case base => rw [History.chain_succ_base hl]
      case operand x =>
        exfalso
        rw [history] at hl
        cases hv : d.version k n
        case none => simp [hv] at hl
        case some v =>
          obtain ⟨hmem, hk, _⟩ := mem_of_version hv
          simp [hv, Version.link, hm v hmem hk] at hl

theorem read_eq_chain [Inhabited V] (ht : d.Untied k) (hm : op = none → d.MergeFree k) :
    d.read op k r now = resolveChain op k (History.chain (d.history now k) (r + 1)) := by
  cases op
  case none =>
    rw [read, pointRead_eq_below (f := fun _ x => x) (hm rfl), History.below_eq_chain,
      chain_mergeFree (hm rfl), resolveChain]
    cases (History.chain (d.history now k) (r + 1)).2 <;> rfl
  case some op => rw [read, mergedRead_eq_chain, chain_readHistory ht, resolveChain]

theorem mergedRead_eq_below [Inhabited V] {op : MergeOperator K V} (hop : op.Folds k f)
    (ht : d.Untied k) : d.mergedRead op k r now = History.below f (d.history now k) none (r + 1) := by
  rw [mergedRead_eq_chain, chain_readHistory ht, hop.resolve_eq_below]

section cover

variable {c : Nat}

end cover

section scan

variable [Inhabited V] {op : Option (MergeOperator K V)}

omit [Inhabited V] in
theorem mem_keys : k ∈ d.keys ↔ ∃ v ∈ d.versions, v.key = k := by
  simp [keys]

omit [Inhabited V] in
theorem keys_sorted : d.keys.Pairwise (· < ·) := by
  have hn : d.keys.Nodup := (perm_insertionSort _ _).nodup_iff.mpr (nodup_dedup _)
  exact (pairwise_insertionSort _ _).imp₂ (fun _ _ h₁ h₂ => lt_of_le_of_ne h₁ h₂) hn

end scan

end Data

end OndaDb

import OndaDb.Compaction.Theorems.Span

-- What compaction does to the history of one key.
namespace OndaDb

open List

variable {K V : Type}

def versionHistory (now : Int) (us : List (Version K V)) (C : Nat → Prop) [DecidablePred C] :
    History V := fun s =>
  ((us.find? (·.seq = s)).map (Version.link now)).or (if C s then some (.base none) else none)

theorem Data.find?_seq [LinearOrder K] (d : Data K V) (k : K) (s : Nat) :
    (d.versions.filter (·.key = k)).find? (·.seq = s) = d.version k s := by
  rw [find?_filter, Data.version]
  exact find?_congr fun v _ => by simp [Bool.decide_and]

theorem Data.history_eq [LinearOrder K] {d : Data K V} (h : us.find? (·.seq = s) = d.version k s) :
    d.history now k s = versionHistory now us (Covered d.fragments k) s := by
  rw [Data.history, versionHistory, h]

section versionHistory

variable {C C' : Nat → Prop} [DecidablePred C] [DecidablePred C'] {us us' : List (Version K V)}
variable {f : Option V → V → V} {e e' : Option V}

theorem versionHistory_congr (hu : us.find? (·.seq = s) = us'.find? (·.seq = s)) (hc : C s ↔ C' s) :
    versionHistory now us C s = versionHistory now us' C' s := by
  simp [versionHistory, hu, hc]

theorem below_versionHistory_nil (h₁ : (∃ c < n, C c) → e' = none) (h₂ : (∀ c < n, ¬C c) → e' = e) :
    History.below f (versionHistory (K := K) now [] C) e n = e' := by
  induction n
  case zero => exact (h₂ (by simp)).symm
  case succ n hi =>
    by_cases hn : C n
    case pos =>
      have hb : versionHistory (K := K) (V := V) now [] C n = some (.base none) := by
        simp [versionHistory, hn]
      rw [History.below_succ_some hb, Link.apply_base, h₁ ⟨n, Nat.lt_succ_self _, hn⟩]
    rw [History.below_succ_none (by simp [versionHistory, hn])]
    refine hi (fun ⟨c, hc, h⟩ => h₁ ⟨c, Nat.lt_succ_of_lt hc, h⟩) fun h => h₂ fun c hc => ?_
    rcases Nat.lt_succ_iff_lt_or_eq.mp hc with hc | rfl
    · exact h c hc
    · exact hn

-- The value of versions none of which a range tombstone hides: each applies to the one after it, the
-- last to what is older.
theorem below_versionHistory (hd : us.Pairwise fun v w => w.seq < v.seq) (hn : ∀ v ∈ us, v.seq < n)
    (hc : ∀ v ∈ us, ∀ c < n, C c → c ≤ v.seq) (hm : ∀ v ∈ us, v.isMerge → ¬C v.seq)
    (h₁ : (∃ c < n, C c) → e' = none) (h₂ : (∀ c < n, ¬C c) → e' = e) :
    History.below f (versionHistory now us C) e n =
      us.foldr (fun v e => (v.link now).apply f e) e' := by
  induction us generalizing n
  case nil => exact below_versionHistory_nil h₁ h₂
  case cons v us hi =>
    obtain ⟨hv, hd⟩ := pairwise_cons.mp hd
    have hvn := hn v (by simp)
    have hlink : versionHistory now (v :: us) C v.seq = some (v.link now) := by simp [versionHistory]
    have hnone : ∀ s, v.seq + 1 ≤ s → s < n → versionHistory now (v :: us) C s = none := by
      intro s h₁ h₂
      have hcs : ¬C s := fun h => by have := hc v (by simp) s h₂ h; omega
      have hfind : (v :: us).find? (·.seq = s) = none := by
        simp only [find?_eq_none, mem_cons, decide_eq_true_eq]
        rintro w (rfl | hw)
        · omega
        · have := hv w hw
          omega
      simp [versionHistory, hfind, hcs]
    rw [History.below_eq_of_none hvn hnone, History.below_succ_some hlink, foldr_cons]
    cases hvm : v.isMerge
    case false => simp [Version.link, hvm]
    case true =>
      have hcv : ∀ c < n, C c → c < v.seq := fun c hcn hC =>
        (hc v (by simp) c hcn hC).lt_of_ne (by rintro rfl; exact hm v (by simp) hvm hC)
      congr 1
      have htail : ∀ s < v.seq, versionHistory now (v :: us) C s = versionHistory now us C s :=
        fun s hs => versionHistory_congr (find?_cons_of_neg (by simpa using hs.ne')) Iff.rfl
      rw [History.below_congr htail]
      refine hi hd hv ?_ (fun w hw => hm w (mem_cons_of_mem _ hw)) ?_ ?_
      · exact fun w hw c hcv => hc w (mem_cons_of_mem _ hw) c (hcv.trans hvn)
      · rintro ⟨c, hcv, hC⟩
        exact h₁ ⟨c, hcv.trans hvn, hC⟩
      · exact fun h => h₂ fun c hcn hC => h c (hcv c hcn hC) hC

end versionHistory

namespace SpanState

variable [Inhabited V] {job : FrozenJob K V} {ops : List (Version K V)} {base : Option (Version K V)}

def tailVersions (job : FrozenJob K V) (live : Bool) (ops : List (Version K V))
    (base : Option (Version K V)) : List (Version K V) :=
  (if job.mergeFold.isSome then [] else ops) ++ closing job live (suffix job ops) base

-- Either the operands are kept, in front of the base if that is kept, or they are folded over it.
inductive Tail (job : FrozenJob K V) (k : K) (live : Bool) (ops : List (Version K V))
    (base : Option (Version K V)) : List (Version K V) → Prop
  | operands (g : Version K V → Version K V)
    (hg : ∀ v ∈ ops, (g v).seq = v.seq ∧ (g v).isMerge ∧ (g v).value = v.value)
    (hb : ∀ b ∈ base, dropsBase job live b) : Tail job k live ops base (ops.map g)
  | based (g : Version K V → Version K V)
    (hg : ∀ v ∈ ops, (g v).seq = v.seq ∧ (g v).isMerge ∧ (g v).value = v.value)
    (hb : base = some b) : Tail job k live ops base (ops.map g ++ [b])
  | folded (hop : op ∈ job.mergeFold) (ho : o ∈ ops.head?) (hbot : job.bottom)
    (hb : ∀ b ∈ base, dropsBase job live b) :
    Tail job k live ops base [⟨k, o.seq, 0, .put, op.fullMerge k none (ops.map (·.value)).reverse⟩]
  | foldedBase (hop : op ∈ job.mergeFold) (ho : o ∈ ops.head?) (hb : base = some b) (ht : b.ttl = 0) :
    Tail job k live ops base [⟨k, o.seq, 0, .put,
      op.fullMerge k (if b.tombstone then none else some b.value) (ops.map (·.value)).reverse⟩]

theorem emitFold_eq (hf : job.filter = none) (hop : op ∈ job.mergeFold) :
    emitFold job p x =
      [⟨p.key, p.newestSeq, 0, .put, op.fullMerge p.key x (p.operands.map Prod.snd).reverse⟩] := by
  simp [emitFold, Option.mem_def.mp hop, FrozenJob.filterRemoves, hf]

theorem tail_of_not_pending (hops : ∀ v ∈ ops, v.isMerge) :
    Tail job k live ops base (ops ++ closing job live none base) := by
  have hid : ∀ v ∈ ops, (id v).seq = v.seq ∧ (id v).isMerge ∧ (id v).value = v.value :=
    fun v hv => ⟨rfl, hops v hv, rfl⟩
  match base with
  | none =>
    have h : Tail job k live ops none (ops.map id) := .operands id hid (by simp)
    simpa [closing, flushPending] using h
  | some b =>
    by_cases hd : dropsBase job live b
    case pos =>
      have h : Tail job k live ops (some b) (ops.map id) := .operands id hid (by simpa)
      simpa [closing, flushPending, hd] using h
    case neg => simpa [closing, hd] using Tail.based id hid rfl

theorem tailVersions_tail (hf : job.filter = none) (hops : ∀ v ∈ ops, v.key = k ∧ v.isMerge) :
    Tail job k live ops base (tailVersions job live ops base) := by
  cases hm : job.mergeFold
  case none =>
    simpa [tailVersions, suffix, hm] using tail_of_not_pending fun v hv => (hops v hv).right
  case some op =>
    cases ops
    case nil =>
      have ht : tailVersions job live [] base = [] ++ closing job live none base := by
        simp [tailVersions, suffix]
      exact ht ▸ tail_of_not_pending (by simp)
    case cons o os =>
      have hop : op ∈ job.mergeFold := hm
      have hok := (hops o (by simp)).left
      have hsfx : suffix job (o :: os) = some ⟨k, o.seq, (o :: os).map fun v => (v.seq, v.value)⟩ := by
        simp [suffix, hm, hok]
      have hvals : ((o :: os).map fun v => (v.seq, v.value)).map Prod.snd = (o :: os).map (·.value) := by
        simp
      -- Operands are written back without what they do not carry.
      have hback : emitOperands ⟨k, o.seq, (o :: os).map fun v => (v.seq, v.value)⟩ =
          (o :: os).map fun v => ⟨k, v.seq, 0, .merge, v.value⟩ := by
        simp [emitOperands]
      have hflush : (∀ b ∈ base, dropsBase job live b) → Tail job k live (o :: os) base
          (flushPending job (some ⟨k, o.seq, (o :: os).map fun v => (v.seq, v.value)⟩)) := by
        intro hb
        by_cases hbot : job.bottom
        case pos =>
          rw [flushPending, if_pos hbot, emitFold_eq hf hop, hvals]
          exact .folded hop rfl hbot hb
        rw [flushPending, if_neg hbot, hback]
        exact .operands _ (fun v hv => ⟨rfl, rfl, rfl⟩) hb
      have ht : tailVersions job live (o :: os) base = closing job live
          (some ⟨k, o.seq, (o :: os).map fun v => (v.seq, v.value)⟩) base := by
        simp [tailVersions, hm, hsfx]
      rw [ht]
      cases base
      case none => exact hflush (by simp)
      case some b =>
        rw [closing]
        split
        case isTrue hd => exact hflush (by simpa)
        split
        case isTrue ht => rw [emitFold_eq hf hop, hvals]; exact .foldedBase hop rfl rfl ht
        case isFalse => rw [hback]; exact .based _ (fun v hv => ⟨rfl, rfl, rfl⟩) rfl

namespace Tail

omit [Inhabited V]

variable {ws : List (Version K V)} {f : Option V → V → V} {e : Option V}

theorem exists_seq (h : Tail job k live ops base ws) (hops : ∀ v ∈ ops, v.isMerge) (hv : v ∈ ws) :
    ∃ u ∈ ops ++ base.toList, u.seq = v.seq ∧ (v.isMerge → u.isMerge) := by
  cases h
  case operands g hg _ =>
    obtain ⟨u, hu, he⟩ := mem_map.mp hv
    exact ⟨u, by simp [hu], he ▸ (hg u hu).1.symm, fun _ => hops u hu⟩
  case based b g hg hb =>
    rcases mem_append.mp hv with hv | hv
    · obtain ⟨u, hu, he⟩ := mem_map.mp hv
      exact ⟨u, by simp [hu], he ▸ (hg u hu).1.symm, fun _ => hops u hu⟩
    · cases mem_singleton.mp hv
      exact ⟨v, by simp [hb], rfl, id⟩
  case folded o _ ho _ _ =>
    cases mem_singleton.mp hv
    exact ⟨o, by simp [mem_of_mem_head? ho], rfl, by simp [Version.isMerge]⟩
  case foldedBase o b _ ho _ _ =>
    cases mem_singleton.mp hv
    exact ⟨o, by simp [mem_of_mem_head? ho], rfl, by simp [Version.isMerge]⟩

theorem desc (h : Tail job k live ops base ws)
    (hd : (ops ++ base.toList).Pairwise fun v w => w.seq < v.seq) :
    ws.Pairwise fun v w => w.seq < v.seq := by
  have hmap {g : Version K V → Version K V} (hg : ∀ v ∈ ops, (g v).seq = v.seq) :
      (ops.map g).Pairwise fun v w => w.seq < v.seq := by
    refine pairwise_map.mpr ((pairwise_append.mp hd).1.imp_of_mem fun ha hb hab => ?_)
    rw [hg _ ha, hg _ hb]
    exact hab
  cases h
  case operands g hg _ => exact hmap fun v hv => (hg v hv).1
  case based b g hg hb =>
    refine pairwise_append.mpr ⟨hmap fun v hv => (hg v hv).1, by simp, fun v hv w hw => ?_⟩
    obtain ⟨u, hu, he⟩ := mem_map.mp hv
    rw [← he, (hg u hu).1]
    exact (pairwise_append.mp hd).2.2 u hu w (by simpa [hb, eq_comm] using hw)
  case folded => simp
  case foldedBase => simp

theorem foldr_operands {g : Version K V → Version K V}
    (hg : ∀ v ∈ ops, (g v).isMerge ∧ (g v).value = v.value) :
    (ops.map g).foldr (fun v e => (v.link now).apply f e) e =
      (ops.map (·.value)).foldr (fun x e => some (f e x)) e := by
  induction ops
  case nil => rfl
  case cons v ops hi =>
    obtain ⟨h₁, h₂⟩ := hg v (by simp)
    simp only [map_cons, foldr_cons, hi fun v hv => hg v (mem_cons_of_mem _ hv)]
    simp [Version.link, h₁, h₂]

theorem link_of_dropsBase (hb : ¬b.isMerge) (hd : dropsBase job live b) (hnow : job.now ≤ clock) :
    (b : Version K V).link clock = .base none := by
  have hex : b.expired job.now → b.expired clock := by
    simp only [Version.expired, decide_eq_true_eq]
    exact fun h => ⟨h.1, h.2.trans hnow⟩
  have : b.tombstone ∨ b.expired clock := by
    simp only [dropsBase, dropsExpired, Bool.or_eq_true, Bool.and_eq_true] at hd
    exact hd.imp (·.1.1) fun h => hex h.2
  simp [Version.link, hb, Bool.or_eq_true, this]

theorem resolves (h : Tail job k live ops base ws) (hops : ∀ v ∈ ops, v.isMerge)
    (hb : ∀ b ∈ base, ¬b.isMerge) (hop : ∀ v ∈ ops, ∀ op ∈ job.mergeFold, op.Folds k f)
    (hnow : job.now ≤ clock) (he : job.bottom → e = none) :
    ws.foldr (fun v e => (v.link clock).apply f e) e =
      ops.foldr (fun v e => (v.link clock).apply f e)
        (base.elim e fun b => (b.link clock).apply f e) := by
  have hself {e} : ops.foldr (fun v e => (v.link clock).apply f e) e =
      (ops.map (·.value)).foldr (fun x e => some (f e x)) e := by
    rw [← foldr_operands (g := id) fun v hv => ⟨hops v hv, rfl⟩, map_id]
  -- Without a base that is kept, nothing lies below the operands.
  have hdrop : (∀ b ∈ base, dropsBase job live b) →
      (base.elim e fun b => (b.link clock).apply f e) = e := by
    intro hd
    cases base
    case none => rfl
    case some b =>
      have hbot : job.bottom := by
        have := hd b rfl
        simp only [dropsBase, dropsExpired, Bool.or_eq_true, Bool.and_eq_true] at this
        exact this.elim (·.1.2) (·.1.1.1)
      simp [link_of_dropsBase (hb b rfl) (hd b rfl) hnow, he hbot]
  have hput {o : Version K V} {op : MergeOperator K V} (hm : op ∈ job.mergeFold)
      (ho : o ∈ ops.head?) (x : Option V) :
      [(⟨k, o.seq, 0, .put, op.fullMerge k x (ops.map (·.value)).reverse⟩ : Version K V)].foldr
        (fun v e => (v.link clock).apply f e) e =
      (ops.map (·.value)).foldr (fun x e => some (f e x)) x := by
    have hne : (ops.map (·.value)).reverse ≠ [] := by
      simpa using ne_nil_of_mem (mem_of_mem_head? ho)
    have hfold := hop o (mem_of_mem_head? ho) op hm x _ hne
    rw [foldl_reverse] at hfold
    rw [← hfold]
    simp [Version.link, Version.isMerge, Version.tombstone, Kind.tombstone, Version.expired]
  rw [hself]
  cases h
  case operands g hg hd => rw [foldr_operands fun v hv => (hg v hv).2, hdrop hd]
  case based b g hg hbase =>
    rw [foldr_append, foldr_operands fun v hv => (hg v hv).2]
    simp [hbase]
  case folded hm ho hbot hd => rw [hput hm ho, hdrop hd, he hbot]
  case foldedBase op o b hm ho hbase ht =>
    have hbm : ¬b.isMerge := hb b (hbase ▸ rfl)
    rw [hput hm ho]
    simp [hbase, Version.link, hbm, Version.expired, ht]

end Tail

end SpanState

theorem find?_filter_seq {us : List (Version K V)} (hd : us.Pairwise fun v w => w.seq < v.seq) :
    (us.filter p).find? (·.seq = s) = (us.find? (·.seq = s)).filter p := by
  induction us
  case nil => rfl
  case cons v us hi =>
    obtain ⟨hv, hd⟩ := pairwise_cons.mp hd
    by_cases hs : v.seq = s
    case neg =>
      rw [find?_cons_of_neg (by simpa using hs), ← hi hd, filter_cons]
      split
      · rw [find?_cons_of_neg (by simpa using hs)]
      · rfl
    have hn : (us.filter p).find? (·.seq = s) = none := by
      simp only [find?_eq_none, decide_eq_true_eq]
      intro w hw
      have := hv w (mem_filter.mp hw).left
      omega
    cases hp : p v <;> simp [hs, hp, hn, Option.filter]

-- What a job may rely on for the operands of a key: no range tombstone shares a sequence with one of
-- them, and its operator applies them one after the other.
def FrozenJob.FoldsOperands [LinearOrder K] (job : FrozenJob K V) (ins : Data K V) (k : K)
    (f : Option V → V → V) : Prop :=
  ∀ v ∈ ins.versions, v.key = k → v.isMerge →
    ¬Covered ins.fragments k v.seq ∧ ∀ op ∈ job.mergeFold, op.Folds k f

structure KeyRun [LinearOrder K] (job : FrozenJob K V) (ins outs : Data K V) (k : K) where
  {us above ops rest ws : List (Version K V)}
  live : Bool
  desc : us.Pairwise fun v w => w.seq < v.seq
  mem : ∀ v ∈ us, v ∈ ins.versions ∧ v.key = k
  version : ∀ s, us.find? (·.seq = s) = ins.version k s
  phases : SpanState.Phases job (us.filter fun v =>
    ∀ c ≤ job.oldestSnapshot, Covered ins.fragments k c → c ≤ v.seq) above ops rest
  tail : SpanState.Tail job k live ops rest.head? ws
  written : outs.versions.filter (·.key = k) = above.filter (!SpanState.dropsExpired job ·) ++ ws
  covered : ∀ c, Covered outs.fragments k c → Covered ins.fragments k c
  above_covered : ∀ c, job.oldestSnapshot < c → (Covered outs.fragments k c ↔ Covered ins.fragments k c)
  below_covered : job.bottom = false → (∃ c ≤ job.oldestSnapshot, Covered ins.fragments k c) →
    ∃ c ≤ job.oldestSnapshot, Covered outs.fragments k c

theorem exists_keyRun [LinearOrder K] [Inhabited K] [Inhabited V] {job : FrozenJob K V}
    {lower upper : KeyBound K} (h : ∀ t ∈ inputs, t.Valid) (hf : job.filter = none)
    (hr : job.ranges = collectInputRanges inputs) (hk : InSpan lower upper k) :
    Nonempty (KeyRun job (tablesData inputs) (tablesData (runSpan job inputs lower upper)) k) := by
  have hsorted : (spanStream inputs lower upper).Pairwise Version.Before := spanStream_sorted h
  let us := (spanStream inputs lower upper).filter (·.key = k)
  have hkey : ∀ v ∈ us, v.key = k := fun v hv => by simpa using (mem_filter.mp hv).right
  have hmem : ∀ v ∈ us, v ∈ (tablesData inputs).versions :=
    fun v hv => (mem_spanStream h (mem_of_mem_filter hv)).left
  have hdesc : us.Pairwise fun v w => w.seq < v.seq := by
    refine List.Pairwise.imp_of_mem (fun {v w} hv hw hvw => ?_) (hsorted.filter _)
    exact (hvw.resolve_left fun hlt => hlt.ne ((hkey v hv).trans (hkey w hw).symm)).right
  have hversion : ∀ s, us.find? (·.seq = s) = (tablesData inputs).version k s := by
    intro s
    rw [← find?_spanStream h hk, find?_filter]
    exact find?_congr fun v _ => by simp [Bool.decide_and]
  have hmask : ∀ v : Version K V, v.key = k → ((!job.masks (job.covering lower upper) v) =
      decide (∀ c ≤ job.oldestSnapshot, Covered (tablesData inputs).fragments k c → c ≤ v.seq)) := by
    rintro v rfl
    rw [Bool.eq_iff_iff, Bool.not_eq_true', ← Bool.not_eq_true, masks_iff, decide_eq_true_eq]
    simp only [not_exists, not_and, not_lt, covered_covering hr hk]
    exact forall_congr' fun c => imp.swap
  obtain ⟨above, ops, rest, hph⟩ := SpanState.exists_phases job (hdesc.filter
    fun v : Version K V => ∀ c ≤ job.oldestSnapshot, Covered (tablesData inputs).fragments k c → c ≤ v.seq)
  have hph' : SpanState.Phases job ((spanStream inputs lower upper).filter
      fun v => v.key = k ∧ !job.masks (job.covering lower upper) v) above ops rest := by
    convert hph using 1
    rw [filter_filter]
    refine filter_congr fun v _ => ?_
    by_cases hv : v.key = k
    · rw [← hmask v hv]
      simp [hv]
    · simp [hv]
  have hsub : ∀ v ∈ above ++ (ops ++ rest), v ∈ us :=
    hph.eq ▸ fun _ hv => mem_of_mem_filter hv
  have hops : ∀ v ∈ ops, v.key = k ∧ v.isMerge :=
    fun v hv => ⟨hkey v (hsub v (by simp [hv])), (hph.operand v hv).right⟩
  have hout : ∀ c, Covered (tablesData (runSpan job inputs lower upper)).fragments k c ↔
      Covered (job.retained lower upper) k c := fun c => covered_runSpan h hk
  refine ⟨{
    us, above, ops, rest
    ws := SpanState.tailVersions job _ ops rest.head?
    live := SpanState.liveAfter job false above || !ops.isEmpty
    desc := hdesc
    mem := fun v hv => ⟨hmem v hv, hkey v hv⟩
    version := hversion
    phases := hph
    tail := SpanState.tailVersions_tail hf hops
    written := ?_
    covered := ?_
    above_covered := ?_
    below_covered := ?_
  }⟩
  case refine_1 =>
    rw [runSpan_versions, spanVersions_eq, SpanState.writes_filter hf hsorted hph' (by
      simp [SpanState.start]) (by simp [SpanState.start, VersionRetention.new]), SpanState.keyVersions,
      SpanState.tailVersions, append_assoc]
  case refine_2 =>
    exact fun c hc => (covered_covering hr hk).mp (covering_of_retained ((hout c).mp hc))
  case refine_3 =>
    exact fun c hc => (hout c).trans ((retained_above hc).trans (covered_covering hr hk))
  case refine_4 =>
    rintro hb ⟨c, hc, hcov⟩
    obtain ⟨t, ht, hcov⟩ := exists_retained hb hc ((covered_covering hr hk).mpr hcov)
    exact ⟨t, ht, (hout t).mpr hcov⟩

namespace KeyRun

variable [LinearOrder K] {job : FrozenJob K V} {ins outs : Data K V} {f : Option V → V → V}

theorem mem_us (R : KeyRun job ins outs k) (hv : v ∈ R.above ++ (R.ops ++ R.rest)) : v ∈ R.us :=
  mem_of_mem_filter (R.phases.eq ▸ hv)

theorem unmasked (R : KeyRun job ins outs k) (hv : v ∈ R.above ++ (R.ops ++ R.rest)) :
    ∀ c ≤ job.oldestSnapshot, Covered ins.fragments k c → c ≤ v.seq := by
  rw [← R.phases.eq] at hv
  simpa using (mem_filter.mp hv).right

theorem find?_unmasked (R : KeyRun job ins outs k) (s : Nat) :
    (R.above ++ (R.ops ++ R.rest)).find? (·.seq = s) = (ins.version k s).filter fun v =>
      ∀ c ≤ job.oldestSnapshot, Covered ins.fragments k c → c ≤ v.seq := by
  rw [← R.phases.eq, find?_filter_seq R.desc, R.version]

theorem tail_le (R : KeyRun job ins outs k) (hv : v ∈ R.ops ++ R.rest) : v.seq ≤ job.oldestSnapshot :=
  (mem_append.mp hv).elim (fun h => (R.phases.operand v h).left) (R.phases.le v)

theorem mem_tail (R : KeyRun job ins outs k) (hv : v ∈ R.ws) :
    ∃ u ∈ R.ops ++ R.rest, u.seq = v.seq ∧ (v.isMerge → u.isMerge) := by
  obtain ⟨u, hu, h⟩ := R.tail.exists_seq (fun v hv => (R.phases.operand v hv).right) hv
  refine ⟨u, ?_, h⟩
  simp only [mem_append, Option.mem_toList] at hu ⊢
  exact hu.imp_right mem_of_mem_head?

theorem ws_le (R : KeyRun job ins outs k) (hv : v ∈ R.ws) : v.seq ≤ job.oldestSnapshot := by
  obtain ⟨u, hu, he, _⟩ := R.mem_tail hv
  exact he ▸ R.tail_le hu

omit [LinearOrder K] in
theorem find?_eq_none_of_le {us : List (Version K V)} (h : ∀ v ∈ us, v.seq ≤ n) (hs : n < s) :
    us.find? (·.seq = s) = none := by
  simp only [find?_eq_none, decide_eq_true_eq]
  exact fun v hv he => absurd (h v hv) (by omega)

theorem version_above (R : KeyRun job ins outs k) (hs : job.oldestSnapshot < s) :
    outs.version k s = (ins.version k s).filter (!SpanState.dropsExpired job ·) := by
  have habove : R.above.find? (·.seq = s) = ins.version k s := by
    have h := R.find?_unmasked s
    rw [find?_append, find?_eq_none_of_le (fun v => R.tail_le) hs, Option.or_none] at h
    rw [h]
    cases hv : ins.version k s
    case none => rfl
    case some v =>
      have hvs := (Data.mem_of_version hv).2.2
      exact if_pos (decide_eq_true fun c hc _ => by omega)
  rw [← Data.find?_seq, R.written, find?_append, find?_filter_seq, habove,
    find?_eq_none_of_le (fun v => R.ws_le) hs, Option.or_none]
  exact (pairwise_append.mp (R.phases.eq ▸ R.desc.filter _)).1

theorem tail_desc (R : KeyRun job ins outs k) : (R.ops ++ R.rest).Pairwise fun v w => w.seq < v.seq :=
  (pairwise_append.mp (R.phases.eq ▸ R.desc.filter _)).2.1

theorem below_ins (R : KeyRun job ins outs k) (hm : job.FoldsOperands ins k f) :
    History.below f (ins.history clock k) e (job.oldestSnapshot + 1) =
      History.below f (versionHistory clock (R.ops ++ R.rest) (Covered ins.fragments k)) e
        (job.oldestSnapshot + 1) := by
  have hagree : ∀ s ≤ job.oldestSnapshot,
      (∀ c ≤ job.oldestSnapshot, Covered ins.fragments k c → c ≤ s) →
      ins.history clock k s =
        versionHistory clock (R.ops ++ R.rest) (Covered ins.fragments k) s := by
    intro s hs hc
    refine Data.history_eq ?_
    have h := R.find?_unmasked s
    have habove : R.above.find? (·.seq = s) = none := by
      simp only [find?_eq_none, decide_eq_true_eq]
      exact fun v hv he => absurd (R.phases.gt v hv) (by omega)
    rw [find?_append, habove, Option.none_or] at h
    rw [h]
    cases hv : ins.version k s
    case none => rfl
    case some v => exact if_pos (decide_eq_true ((Data.mem_of_version hv).2.2 ▸ hc))
  have hn := ins.newestCover_newest k job.oldestSnapshot
  cases hc : ins.newestCover k job.oldestSnapshot <;> rw [hc] at hn
  case none => exact History.below_congr fun s hs => hagree s (by omega) fun c hc h => absurd h (hn c hc)
  case some c =>
    obtain ⟨hcov, hle, hmax⟩ := hn
    -- The newest range tombstone, or a version at its sequence, is a base.
    have hbase : ∃ b, ins.history clock k c = some (.base b) := by
      cases hv : ins.version k c
      case none => exact ⟨none, by simp [Data.history, hv, hcov]⟩
      case some v =>
        obtain ⟨hmem, hk, hs⟩ := Data.mem_of_version hv
        have hvm : ¬v.isMerge := fun h => (hm v hmem hk h).left (hs ▸ hcov)
        exact ⟨_, by rw [Data.history_of_version hv, Version.link, if_neg hvm]⟩
    obtain ⟨b, hb⟩ := hbase
    exact History.below_congr_base hb (by omega) fun t h₁ h₂ =>
      hagree t (by omega) fun c' hc' h => (hmax c' hc' h).trans h₁

theorem below_outs (R : KeyRun job ins outs k) :
    History.below f (outs.history clock k) e (job.oldestSnapshot + 1) =
      History.below f (versionHistory clock R.ws (Covered outs.fragments k)) e
        (job.oldestSnapshot + 1) := by
  refine History.below_congr fun s hs => Data.history_eq ?_
  have habove : (R.above.filter (!SpanState.dropsExpired job ·)).find? (·.seq = s) = none := by
    simp only [find?_eq_none, decide_eq_true_eq]
    exact fun v hv he => absurd (R.phases.gt v (mem_of_mem_filter hv)) (by omega)
  rw [← Data.find?_seq, R.written, find?_append, habove, Option.none_or]

theorem below_snapshot (R : KeyRun job ins outs k) (hm : job.FoldsOperands ins k f)
    (hnow : job.now ≤ clock) (he : job.bottom → e = none) :
    History.below f (outs.history clock k) e (job.oldestSnapshot + 1) =
      History.below f (ins.history clock k) e (job.oldestSnapshot + 1) := by
  -- What lies below the versions of the key: nothing, or what is older than the inputs.
  obtain ⟨e', h₁, h₂⟩ : ∃ e', ((∃ c < job.oldestSnapshot + 1, Covered ins.fragments k c) → e' = none) ∧
      ((∀ c < job.oldestSnapshot + 1, ¬Covered ins.fragments k c) → e' = e) := by
    by_cases hc : ∃ c < job.oldestSnapshot + 1, Covered ins.fragments k c
    · exact ⟨none, fun _ => rfl, fun h => absurd hc (by simpa using h)⟩
    · exact ⟨e, fun h => absurd h hc, fun _ => rfl⟩
  have he' : job.bottom → e' = none := by
    intro hb
    by_cases hc : ∃ c < job.oldestSnapshot + 1, Covered ins.fragments k c
    · exact h₁ hc
    · rw [h₂ (by simpa using hc), he hb]
  have hout : (∀ c < job.oldestSnapshot + 1, ¬Covered outs.fragments k c) → e' = e := by
    intro hno
    cases hb : job.bottom
    case true => rw [he' hb, he hb]
    case false =>
      refine h₂ fun c hc hcov => ?_
      obtain ⟨t, ht, h⟩ := R.below_covered hb ⟨c, by omega, hcov⟩
      exact hno t (by omega) h
  have hmem {v} (hv : v ∈ R.ops ++ R.rest) : v ∈ R.above ++ (R.ops ++ R.rest) :=
    mem_append_right _ hv
  have hmerge {v} (hv : v ∈ R.ops ++ R.rest) (h : v.isMerge) : ¬Covered ins.fragments k v.seq ∧
      ∀ op ∈ job.mergeFold, op.Folds k f := by
    obtain ⟨hi, hk⟩ := R.mem v (R.mem_us (hmem hv))
    exact hm v hi hk h
  have hrest : R.rest.foldr (fun v e => (v.link clock).apply f e) e' =
      R.rest.head?.elim e' fun b => (b.link clock).apply f e' := by
    cases hr : R.rest
    case nil => rfl
    case cons b _ =>
      have hb : ¬b.isMerge := R.phases.base b (by simp [hr])
      simp [Version.link, hb]
  rw [R.below_ins hm, R.below_outs]
  rw [below_versionHistory R.tail_desc (fun v hv => Nat.lt_succ_of_le (R.tail_le hv))
    (fun v hv c hc => R.unmasked (hmem hv) c (by omega)) (fun v hv h => (hmerge hv h).left) h₁ h₂,
    foldr_append, hrest]
  have hdesc : (R.ops ++ R.rest.head?.toList).Pairwise fun v w => w.seq < v.seq := by
    refine R.tail_desc.sublist (.append_left ?_ _)
    cases R.rest <;> simp
  rw [below_versionHistory (R.tail.desc hdesc) (fun v hv => Nat.lt_succ_of_le (R.ws_le hv)) ?covers
    ?merges ?deleted hout]
  case deleted =>
    rintro ⟨c, hc, h⟩
    exact h₁ ⟨c, hc, R.covered c h⟩
  case covers =>
    intro v hv c hc hcov
    obtain ⟨u, hu, hs, _⟩ := R.mem_tail hv
    exact hs ▸ R.unmasked (hmem hu) c (by omega) (R.covered c hcov)
  case merges =>
    intro v hv hvm hcov
    obtain ⟨u, hu, hs, hum⟩ := R.mem_tail hv
    exact (hmerge hu (hum hvm)).left (hs ▸ R.covered _ hcov)
  have hops : ∀ v ∈ R.ops, v.isMerge := fun v hv => (R.phases.operand v hv).right
  exact R.tail.resolves hops R.phases.base
    (fun v hv => (hmerge (mem_append_left _ hv) (hops v hv)).right) hnow he'

end KeyRun

end OndaDb

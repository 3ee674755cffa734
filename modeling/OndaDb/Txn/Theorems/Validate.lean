import OndaDb.SpanIndex.Theorems.Conflicts
import OndaDb.Txn.Validate

namespace OndaDb

open SpanIndex List

theorem forM_eq_ok {α ε : Type} {f : α → Except ε Unit} {l : List α} :
    l.forM f = .ok () ↔ ∀ a ∈ l, f a = .ok () := by
  induction l with
  | nil => simp [forM_nil, pure, Except.pure]
  | cons a l ih =>
    have hf : (a :: l).forM f = f a >>= fun _ => l.forM f := rfl
    rw [hf]
    cases h : f a
    case error e => simp [h, bind, Except.bind]
    case ok u => simpa [h, bind, Except.bind] using ih

theorem except_seq_eq_ok {ε : Type} {a b : Except ε Unit} :
    (do a; b) = .ok () ↔ a = .ok () ∧ b = .ok () := by
  cases a
  case error e => simp [bind, Except.bind]
  case ok u => simp [bind, Except.bind]

theorem except_guard_eq_ok {ε : Type} {c : Prop} [Decidable c] {a b : Except ε Unit} :
    (if c then (do a; b) else b) = .ok () ↔ (c → a = .ok ()) ∧ b = .ok () := by
  split
  case isTrue h => rw [except_seq_eq_ok]; simp [h]
  case isFalse h => simp [h]

theorem except_when_eq_ok {ε : Type} {c : Prop} [Decidable c] {a : Except ε Unit} :
    (if c then a else pure ()) = .ok () ↔ (c → a = .ok ()) := by
  split <;> simp_all [pure, Except.pure]

variable {K V : Type} [LinearOrder K] {log : CommitLog K V} {spans : System K} {r : Request K V}

def CommitLog.Untouched (log : CommitLog K V) (cf : Nat) (key : K) (n : Nat) : Prop :=
  ∀ e ∈ log, n < e.1 → e.2.touches cf key = false

namespace CommitLog

variable {cf n m : Nat} {key : K}

theorem Untouched.append (h : log.Untouched cf key n) (h' : log'.Untouched cf key n) :
    Untouched (log' ++ log) cf key n := by
  intro e he
  exact (mem_append.mp he).elim (h' e) (h e)

theorem untouched_stamp {start : Nat} {ws : List (WriteEntry K V)}
    (h : ∀ w ∈ ws, w.touches cf key = false) : (stamp start ws).Untouched cf key n :=
  fun e he _ => h e.2 (mem_stamp he).1

theorem Untouched.versionsAt (h : log.Untouched cf key n) (hm : n ≤ m) :
    log.versionsAt cf key m = log.versionsAt cf key n := by
  refine filter_congr fun e he => ?_
  by_cases hn : e.1 ≤ n
  · simp [hn, hn.trans hm]
  · simp [h e he (not_le.mp hn)]

-- The markers of the committed range deletes are in the span index's history.
def Marked (log : CommitLog K V) (spans : System K) : Prop :=
  ∀ e ∈ log, ∀ a b, e.2.op = .range a b → ⟨e.2.cf, a, some b, e.1⟩ ∈ spans.committed

omit [LinearOrder K] in
theorem Marked.stamp (h : log.Marked spans) {start : Nat}
    (hi : i.committed = Request.markers start ws ++ spans.committed) :
    Marked (stamp start ws ++ log) i := by
  intro e he a b hop
  rw [hi]
  rcases mem_append.mp he with he | he
  · refine mem_append.mpr (.inl (mem_map.mpr ⟨e, he, ?_⟩))
    simp only [hop]
  · exact mem_append.mpr (.inr (h e he a b hop))

theorem untouched_of_checks (hm : log.Marked spans) (hs : spans.Sound c) (hf : spans.floor ≤ n)
    (hp : log.peekSeq cf key ≤ n) (hc : spans.index.pointConflict cf key n = none) :
    log.Untouched cf key n := by
  intro e he hlt
  rw [WriteEntry.touches, Bool.or_eq_false_iff]
  constructor
  · by_contra hw
    exact absurd ((le_peekSeq he (by simpa using hw)).trans hp) (not_le.mpr hlt)
  · cases hop : e.2.op
    case point => simp [WriteEntry.covers, hop]
    case range a b =>
      by_contra hcov
      simp only [WriteEntry.covers, hop, decide_eq_false_iff_not, not_not] at hcov
      have := hs.pointConflict (hm e he a b hop) rfl hf hlt
        (show Marker.Touches _ key from ⟨hcov.2.1, hcov.2.2⟩)
      simp only [hcov.1, hc, Option.isSome_none, Bool.false_eq_true] at this

end CommitLog

namespace Request

variable [ToString K] {c : Nat}

theorem validate_eq_ok : r.validate log spans.index = .ok () ↔
    (r.needsCheck → r.validateWriteConflicts log = .ok ()) ∧
    (r.isolation = .serializable → r.validateReadConflicts log spans.index = .ok ()) ∧
    (r.needsCheck → r.validateSpanConflicts spans.index = .ok ()) := by
  simp only [validate, validateCommit]
  rw [except_seq_eq_ok, except_guard_eq_ok, except_when_eq_ok, except_when_eq_ok, and_assoc]

theorem peekSeq_le_of_writes (h : r.validateWriteConflicts log = .ok ()) :
    ∀ w ∈ r.writes, log.peekSeq w.cf w.key ≤ r.readSeq := by
  intro w hw
  simp only [validateWriteConflicts] at h
  split at h
  case h_1 => simp at h
  case h_2 hnone => simpa using find?_eq_none.mp hnone w hw

theorem untouched_write (hv : r.validate log spans.index = .ok ()) (hn : r.needsCheck)
    (hm : log.Marked spans) (hs : spans.Sound c) (hf : spans.floor ≤ r.readSeq)
    {w : WriteEntry K V} (hw : w ∈ r.writes) (hr : w.isRange = false) :
    log.Untouched w.cf w.key r.readSeq := by
  obtain ⟨h₁, -, h₃⟩ := validate_eq_ok.mp hv
  have hspan := forM_eq_ok.mp (h₃ hn) w hw
  have hkey : spans.index.pointConflict w.cf w.key r.readSeq = none := by
    cases hop : w.op
    case range => simp [WriteEntry.isRange, hop] at hr
    case point a v t k =>
      simp only [hop] at hspan
      cases hc : spans.index.pointConflict w.cf a r.readSeq
      case none => simpa [WriteEntry.key, hop] using hc
      case some seq => simp [hc] at hspan
  exact CommitLog.untouched_of_checks hm hs hf (peekSeq_le_of_writes (h₁ hn) w hw) hkey

theorem untouched_read (hv : r.validate log spans.index = .ok ()) (hi : r.isolation = .serializable)
    (hm : log.Marked spans) (hs : spans.Sound c) (hf : spans.floor ≤ r.readSeq)
    {k : Nat × K} (hk : k ∈ r.reads) : log.Untouched k.1 k.2 r.readSeq := by
  obtain ⟨-, h₂, -⟩ := validate_eq_ok.mp hv
  have hread := forM_eq_ok.mp (h₂ hi) k hk
  obtain ⟨cf, key⟩ := k
  simp only at hread ⊢
  by_cases hp : log.peekSeq cf key > r.readSeq
  · simp [hp] at hread
  · rw [if_neg hp] at hread
    cases hc : spans.index.pointConflict cf key r.readSeq
    case none => exact CommitLog.untouched_of_checks hm hs hf (not_lt.mp hp) hc
    case some seq => simp [hc] at hread

end Request

end OndaDb

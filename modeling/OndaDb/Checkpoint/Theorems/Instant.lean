import OndaDb.Checkpoint.Theorems.Running

namespace OndaDb.Checkpoint.State

open List

variable {F E : Type} [DecidableEq F] {s s' : State F E} {point : E → Bool}

omit [DecidableEq F] in
theorem le_raised (records : List (Record F E)) (seq : Nat) : seq ≤ raised point seq records := by
  unfold raised
  generalize (records.filter fun r => point r.entry).map Record.seq = seqs
  induction seqs generalizing seq
  case nil => exact Nat.le_refl _
  case cons n seqs ih => exact (Nat.le_max_left seq n).trans (ih (max seq n))

theorem contents_filter (h : s.Running point c) (hp : c.phase = .load) (hr : s.readOnly = false) (hcf : cf ∈ s.families)
    (hs : s.unified = false → (s.mem .shared).records = []) : (s.contents cf).filter (·.seq ≤ c.visible) = s.tables cf := by
  have htodo := (h.load hp hr).left
  have hnew {l : Lane F} (hd : s.Drained c.visible l) (r : Record F E) (hin : r ∈ (s.mem l).records) : c.visible < r.seq := by
    rw [Mem.records, Mem.sealedRecords_eq_nil hd.right, append_nil] at hin
    exact hd.left r hin
  have hshared (r : Record F E) (hin : r ∈ (s.mem .shared).records) : c.visible < r.seq := by
    cases hu : s.unified
    case false =>
      rw [hs hu] at hin
      cases hin
    case true =>
      rcases h.shared hr hu with hall | hd
      · rw [← hall, htodo] at hcf
        cases hcf
      · exact hnew hd r hin
  have hown (r : Record F E) (hin : r ∈ (s.mem (.own cf)).records) : c.visible < r.seq := by
    rcases h.own hr cf hcf with hall | hd
    · rw [htodo] at hall
      cases hall
    · exact hnew hd r hin
  rw [contents, filter_append, filter_eq_nil_iff.mpr, nil_append, filter_eq_self.mpr]
  · exact fun r hin => decide_eq_true (h.tables cf r hin)
  · intro r hin hle
    obtain ⟨hin, _⟩ := mem_filter.mp hin
    exact Nat.not_lt.mpr (of_decide_eq_true hle) ((mem_append.mp hin).elim (hshared r) (hown r))

theorem planned_eq_contents (hr : s.readOnly) (ha : ∀ l, (s.mem l).active = []) (cf : F) : s.planned cf = s.contents cf := by
  rw [planned, if_pos hr, contents, Mem.records, Mem.records, ha, ha, nil_append, nil_append]

-- Every checkpoint shows the answers of one sequence, in every run whose steps are orderly.
theorem checkpoint_instant {s₀ : State F E} (answer : List (Record F E) → K → A) (h₀ : s₀.Opened)
    (h : Reachable s₀ (OrderlyStep point) s) (hc : s.call = some c) (hp : c.phase = .load) :
    s.Instant point answer c := by
  have hsound := Sound.of_reachable h₀ h
  have hrun := hsound.call c hc
  refine ⟨c.visible, Nat.le_refl _, fun cf hcf k => congrArg (answer · k) ?_⟩
  cases hr : s.readOnly
  case false =>
    rw [contents_filter hrun hp hr hcf fun hu => (hsound.lane hu).left, opened, planned, hr, if_neg Bool.false_ne_true]
    refine filter_eq_self.mpr fun r hin => decide_eq_true ?_
    calc r.seq
      _ ≤ c.visible   := hrun.tables cf r hin
      _ ≤ c.persisted := (hrun.load hp hr).right
      _ ≤ _           := le_raised ..
  case true =>
    obtain ⟨_, hactive, hmem, hraised⟩ := hrun.fixed hr
    rw [opened, funext (planned_eq_contents hr hactive), filter_eq_self.mpr, filter_eq_self.mpr]
    · intro r hin
      rcases mem_append.mp hin with hin | hin
      · obtain ⟨hin, _⟩ := mem_filter.mp hin
        exact decide_eq_true ((mem_append.mp hin).elim (hmem _ r) (hmem _ r))
      · exact decide_eq_true (hrun.tables cf r hin)
    · exact fun r hin => decide_eq_true (hraised r (mem_flatMap.mpr ⟨cf, hcf, hin⟩))

section Examples

abbrev Point := Nat × Nat

def anyPoint (_ : Point) : Bool := true

def newest (records : List (Record String Point)) (key : Nat) : Option Nat :=
  ((records.filter (·.entry.1 = key)).foldl
    (fun best r => if best.all (·.seq < r.seq) then some r else best) none).map (·.entry.2)

def empty (unified : Bool) : State String Point where
  unified := unified
  readOnly := false
  families := ["a", "b"]
  sequences := .ofManifest 0
  reserved := []
  applied := []
  mem := fun _ => ⟨[], []⟩
  tables := fun _ => []
  diskSeq := 0
  poisoned := false
  call := none

theorem empty_opened (unified : Bool) : (empty unified).Opened :=
  ⟨rfl, rfl, rfl, fun _ => rfl, fun _ => rfl, rfl, by simp [empty], by simp [empty]⟩

def commit (lane : Lane String) (seq : Nat) (items : List (String × Point)) : List (Event String Point) :=
  let c : Commit String Point := ⟨lane, seq, items.mapIdx fun i (cf, entry) => ⟨cf, seq + i, entry⟩⟩
  [.reserve items, .apply c, .publish c]

def lateCommit : List (Event String Point) :=
  commit .shared 1 [("a", (1, 10)), ("b", (1, 20))] ++ [.start, .call, .call, .flush .shared, .call, .call, .call] ++
    commit .shared 3 [("a", (1, 11))] ++ [.call, .call]

def lateRun : State String Point :=
  lateCommit.foldl exec (empty true)

theorem checkpoint_instant_lateRun :
    (lateRun.call.map Call.phase = some .load ∧ newest (lateRun.contents "a") 1 = some 11) ∧
    ∃ c, lateRun.call = some c ∧ lateRun.Instant anyPoint newest c := by
  have hrun : Reachable (empty true) (OrderlyStep anyPoint) lateRun :=
    Reachable.start.foldl (P := fun s e => s.Enabled e ∧ s.Orderly anyPoint e)
      (fun _ e he => ⟨e, he.left, he.right, rfl⟩) (by decide +kernel)
  have hc : lateRun.call = some ⟨2, [], .load, 3⟩ := by decide +kernel
  exact ⟨by decide +kernel, _, hc, checkpoint_instant newest (empty_opened true) hrun hc rfl⟩

def tornEvents : List (Event String Point) :=
  [.start, .call, .call] ++ commit (.own "a") 1 [("a", (1, 10))] ++ commit (.own "b") 2 [("b", (1, 20))] ++
    [.call, .flush (.own "b"), .call, .call]

def torn : State String Point :=
  tornEvents.foldl exec (empty false)

def uncountedEvents : List (Event String Point) :=
  commit (.own "a") 1 [("a", (1, 10))] ++ [.swap (.own "a"), .start, .call, .call, .call, .call, .call]

def uncounted : State String Point :=
  uncountedEvents.foldl exec (empty false)

theorem newest_filter (h : r.seq ≤ q) : newest ([r].filter (·.seq ≤ q)) r.entry.1 = some r.entry.2 := by
  rw [filter_eq_self.mpr (by simpa using h)]
  simp [newest]

theorem checkpoint_not_instant :
    Allowed exec Enabled (empty false) tornEvents ∧ torn.call = some ⟨0, [], .load, 2⟩ ∧
    ¬torn.Instant anyPoint newest ⟨0, [], .load, 2⟩ ∧
    Allowed exec Enabled (empty false) uncountedEvents ∧ uncounted.call = some ⟨1, [], .load, 1⟩ ∧
    ¬uncounted.Instant anyPoint newest ⟨1, [], .load, 1⟩ := by
  refine ⟨by decide +kernel, by decide +kernel, ?_, by decide +kernel, by decide +kernel, ?_⟩
  · rintro ⟨q, _, h⟩
    have ha := h "a" (by decide +kernel) 1
    have hb := h "b" (by decide +kernel) 1
    by_cases hq : 1 ≤ q
    · have hcontents : torn.contents "a" = [⟨"a", 1, (1, 10)⟩] := by decide +kernel
      have hopened : newest (torn.opened anyPoint ⟨0, [], .load, 2⟩ "a") 1 = none := by decide +kernel
      rw [hcontents, hopened] at ha
      cases ha.trans (newest_filter (r := ⟨"a", 1, (1, 10)⟩) hq)
    · obtain rfl : q = 0 := Nat.lt_one_iff.mp (Nat.not_le.mp hq)
      revert hb
      decide +kernel
  · rintro ⟨q, hq, h⟩
    have ha := h "a" (by decide +kernel) 1
    have hcontents : uncounted.contents "a" = [⟨"a", 1, (1, 10)⟩] := by decide +kernel
    have hopened : newest (uncounted.opened anyPoint ⟨1, [], .load, 1⟩ "a") 1 = none := by decide +kernel
    rw [hcontents, hopened] at ha
    cases ha.trans (newest_filter (r := ⟨"a", 1, (1, 10)⟩) hq)

end Examples

end OndaDb.Checkpoint.State

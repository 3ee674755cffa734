import OndaDb.Prepared.Theorems.Aged

namespace OndaDb.Prepared.Store

open List

variable {I K V : Type} {s : Store I K V} {g : Nat}

structure SameLog (s s' : Store I K V) : Prop where
  files : s'.files = s.files
  tables : s'.tables = s.tables
  floor : s'.floor = s.floor
  gens : s'.active.gens = s.active.gens
  gen : s'.gen = s.gen
  imms : s'.imms = s.imms
  flushed : s'.gens.flushed = s.gens.flushed
  retiring : s'.registry.retiring = s.registry.retiring
  maxBytes : s'.registry.maxBytes = s.registry.maxBytes
  unlinking : s'.unlinking = s.unlinking
  busy : s'.busy = s.busy
  poisoned : s'.poisoned = s.poisoned

theorem SameLog.trans (h : s.SameLog s') (h' : s'.SameLog s'') : s.SameLog s'' where
  files := h'.files.trans h.files
  tables := h'.tables.trans h.tables
  floor := h'.floor.trans h.floor
  gens := h'.gens.trans h.gens
  gen := h'.gen.trans h.gen
  imms := h'.imms.trans h.imms
  flushed := h'.flushed.trans h.flushed
  retiring := h'.retiring.trans h.retiring
  maxBytes := h'.maxBytes.trans h.maxBytes
  unlinking := h'.unlinking.trans h.unlinking
  busy := h'.busy.trans h.busy
  poisoned := h'.poisoned.trans h.poisoned

theorem Aged.sameLog (h : s.Aged) (hs : s.SameLog s') : s'.Aged where
  nodup := by rw [hs.files]; exact h.nodup
  current := by rw [hs.files, hs.gen]; exact h.current
  files := by rw [hs.files, hs.gen]; exact h.files
  active := by rw [hs.gens, hs.gen]; exact h.active
  imms := by rw [hs.imms, hs.gen]; exact h.imms
  flushed := by rw [hs.flushed, hs.gen]; exact h.flushed
  unlinks := by simp only [Unlinks, hs.unlinking, hs.gen]; exact h.unlinks

section Decisions

variable {best : Option (RecoveredDecision I)} {d : RecoveredDecision I} {l ds : List (RecoveredDecision I)}

theorem newer_eq (best : Option (RecoveredDecision I)) (d : RecoveredDecision I) :
    ∃ b, newer best d = some b ∧ (b = d ∨ best = some b) ∧ d.gen ≤ b.gen ∧
      ∀ d', best = some d' → d'.gen ≤ b.gen := by
  rcases best with _ | b
  · exact ⟨d, rfl, .inl rfl, Nat.le_refl _, nofun⟩
  · by_cases h : b.gen ≤ d.gen
    · exact ⟨d, if_pos h, .inl rfl, Nat.le_refl _, fun d' hd => by cases hd; exact h⟩
    · exact ⟨b, if_neg h, .inr rfl, by omega, fun d' hd => by cases hd; exact Nat.le_refl _⟩

theorem foldl_newer_none (h : l.foldl newer best = none) : best = none ∧ l = [] := by
  induction l generalizing best with
  | nil => exact ⟨h, rfl⟩
  | cons x l ih =>
    obtain ⟨b, hb, -⟩ := newer_eq best x
    rw [foldl_cons, hb] at h
    cases (ih h).1

theorem foldl_newer_some (h : l.foldl newer best = some d) :
    (d ∈ l ∨ best = some d) ∧ (∀ d' ∈ l, d'.gen ≤ d.gen) ∧ ∀ d', best = some d' → d'.gen ≤ d.gen := by
  induction l generalizing best with
  | nil =>
    obtain rfl : best = some d := h
    exact ⟨.inr rfl, nofun, fun d' hd => by cases hd; exact Nat.le_refl _⟩
  | cons x l ih =>
    obtain ⟨b, hb, hor, hxb, hbest⟩ := newer_eq best x
    rw [foldl_cons, hb] at h
    obtain ⟨hm, hle, hb'⟩ := ih h
    have hbd := hb' b rfl
    refine ⟨?_, ?_, fun d' hd => (hbest d' hd).trans hbd⟩
    · rcases hm with hm | hm
      · exact .inl (mem_cons_of_mem _ hm)
      · cases hm
        rcases hor with rfl | hor
        · exact .inl mem_cons_self
        · exact .inr hor
    · intro d' hd
      rcases mem_cons.mp hd with rfl | hd
      · exact hxb.trans hbd
      · exact hle d' hd

variable [DecidableEq I] {id : I}

theorem decisionFor_eq_none (h : decisionFor ds id = none) : ∀ d ∈ ds, d.id ≠ id := by
  intro d hd hid
  have := filter_eq_nil_iff.mp (foldl_newer_none h).2 d hd
  exact this (decide_eq_true hid)

theorem decisionFor_eq_some (h : decisionFor ds id = some d) :
    d ∈ ds ∧ d.id = id ∧ ∀ d' ∈ ds, d'.id = id → d'.gen ≤ d.gen := by
  obtain ⟨hm, hle, -⟩ := foldl_newer_some h
  have hd := mem_filter.mp (hm.resolve_right fun h => by cases h)
  exact ⟨hd.1, of_decide_eq_true hd.2, fun d' hd' hid =>
    hle d' (mem_filter.mpr ⟨hd', decide_eq_true hid⟩)⟩

end Decisions

section Recovery

variable {files : List (File I K V)} {tables : List (Item I K V)} {floor maxBytes : Nat}

theorem lt_opened_gen (h : g ∈ files.map File.gen) : g < (opened files tables floor maxBytes).gen := by
  rw [opened]
  rcases hm : (files.map File.gen).max? with _ | m
  · rw [max?_eq_none_iff] at hm
    rw [hm] at h
    exact absurd h not_mem_nil
  · have := le_max?_getD_of_mem (k := 0) h
    rw [hm, Option.getD_some] at this
    simp only [Option.map_some, Option.getD_some]
    omega

theorem aged_opened (hn : (files.map File.gen).Nodup) : (opened files tables floor maxBytes).Aged where
  nodup := by
    have hlt : ∀ g ∈ files.map File.gen, g < (opened files tables floor maxBytes).gen :=
      fun _ => lt_opened_gen
    rw [opened] at hlt ⊢
    rw [map_append, nodup_append']
    refine ⟨hn, by simp, fun g hg hg' => ?_⟩
    have := hlt g hg
    simp only [map_cons, map_nil, mem_singleton] at hg' this
    omega
  current := by simp [opened]
  files := by
    intro g hg
    have hg' : g ∈ files.map File.gen ∨ g = (opened files tables floor maxBytes).gen := by
      rw [opened, map_append, mem_append] at hg
      simpa [opened] using hg
    exact hg'.elim (fun h => (lt_opened_gen h).le) (fun h => h.le)
  active := by
    intro g hg
    have hg' : g ∈ files.map File.gen ∨ g = (opened files tables floor maxBytes).gen := by
      rw [opened, mem_append] at hg
      simpa [opened] using hg
    exact hg'.elim (fun h => (lt_opened_gen h).le) (fun h => h.le)
  imms := by simp [opened]
  flushed := by simp [opened, WalGenState.new]
  unlinks := by simp [opened, Unlinks]

variable [DecidableEq I] [LinearOrder K] {size : List (WriteEntry K V) → Nat} {ds : List (RecoveredDecision I)}

theorem sameLog_resolveRecovered (s : Store I K V) (p : RecoveredPrepare I K V) :
    s.SameLog (resolveRecovered size ds s p) := by
  rw [resolveRecovered]
  split
  · split <;> exact ⟨rfl, rfl, rfl, rfl, rfl, rfl, rfl, rfl, rfl, rfl, rfl, rfl⟩
  · exact ⟨rfl, rfl, rfl, rfl, rfl, rfl, rfl, rfl, rfl, rfl, rfl, rfl⟩
  · exact ⟨rfl, rfl, rfl, rfl, rfl, rfl, rfl, rfl, rfl, rfl, rfl, rfl⟩

theorem sameLog_foldl (s : Store I K V) (ps : List (RecoveredPrepare I K V)) :
    s.SameLog (ps.foldl (resolveRecovered size ds) s) := by
  induction ps generalizing s with
  | nil => exact ⟨rfl, rfl, rfl, rfl, rfl, rfl, rfl, rfl, rfl, rfl, rfl, rfl⟩
  | cons p ps ih => exact (sameLog_resolveRecovered s p).trans (ih _)

theorem reopen_eq_ok (h : reopen size files tables floor maxBytes = .ok s) :
    ((prepares files).map RecoveredPrepare.id).Nodup ∧
      s = (prepares files).foldl (resolveRecovered size (decisions files))
        (opened files tables floor maxBytes) := by
  rw [reopen] at h
  split at h
  case isTrue hn => exact ⟨hn, (Except.ok.inj h).symm⟩
  case isFalse => cases h

theorem aged_reopen (hn : (files.map File.gen).Nodup) (h : reopen size files tables floor maxBytes = .ok s) :
    s.Aged := by
  obtain ⟨-, rfl⟩ := reopen_eq_ok h
  exact (aged_opened hn).sameLog (sameLog_foldl _ _)

def RecoveredPrepare.entry (size : List (WriteEntry K V) → Nat) (p : RecoveredPrepare I K V) : Entry I K V :=
  ⟨p.id, p.writes, size p.writes, p.gen⟩

theorem byId_resolveRecovered (s : Store I K V) (p : RecoveredPrepare I K V) :
    (resolveRecovered size ds s p).registry.byId =
      if (decisionFor ds p.id).isNone then s.registry.byId.insert p.id (p.entry size)
      else s.registry.byId := by
  rw [resolveRecovered]
  split
  case h_1 h => rw [h]; split <;> rfl
  case h_2 h => rw [h]; rfl
  case h_3 h => rw [h]; rfl

theorem tombs_resolveRecovered (s : Store I K V) (p : RecoveredPrepare I K V) :
    (resolveRecovered size ds s p).gens.tombs =
      s.gens.tombs ++ ((decisionFor ds p.id).map fun d => ⟨p.id, p.gen, d.gen, false, false⟩).toList := by
  rw [resolveRecovered]
  split
  case h_1 h => rw [h]; split <;> rfl
  case h_2 h => rw [h]; rfl
  case h_3 h => rw [h]; exact (append_nil _).symm

theorem lookup_foldl_of_not_mem {id : I} (s : Store I K V) (ps : List (RecoveredPrepare I K V))
    (h : id ∉ ps.map RecoveredPrepare.id) :
    (ps.foldl (resolveRecovered size ds) s).registry.byId.lookup id = s.registry.byId.lookup id := by
  induction ps generalizing s with
  | nil => rfl
  | cons p ps ih =>
    rw [map_cons, mem_cons, not_or] at h
    rw [foldl_cons, ih _ h.2, byId_resolveRecovered]
    split
    · rw [Map.lookup_insert_eq, if_neg h.1]
    · rfl

theorem lookup_foldl_of_mem (s : Store I K V) (ps : List (RecoveredPrepare I K V))
    (hn : (ps.map RecoveredPrepare.id).Nodup) (hp : p ∈ ps) :
    (ps.foldl (resolveRecovered size ds) s).registry.byId.lookup p.id =
      if (decisionFor ds p.id).isNone then some (p.entry size) else s.registry.byId.lookup p.id := by
  induction ps generalizing s with
  | nil => cases hp
  | cons q ps ih =>
    rw [map_cons, nodup_cons] at hn
    rw [foldl_cons]
    rcases mem_cons.mp hp with rfl | hp
    · rw [lookup_foldl_of_not_mem _ _ hn.1, byId_resolveRecovered]
      split
      · rw [Map.lookup_insert_eq, if_pos rfl]
      · rfl
    · have hne : p.id ≠ q.id := fun h => hn.1 (h ▸ mem_map_of_mem hp)
      rw [ih _ hn.2 hp, byId_resolveRecovered]
      congr 1
      split
      · rw [Map.lookup_insert_eq, if_neg hne]
      · rfl

theorem live_resolveRecovered (s : Store I K V) (p : RecoveredPrepare I K V) :
    (resolveRecovered size ds s p).gens.live =
      if (decisionFor ds p.id).isNone then p.gen :: s.gens.live else s.gens.live := by
  rw [resolveRecovered]
  split
  case h_1 h => rw [h]; split <;> rfl
  case h_2 h => rw [h]; rfl
  case h_3 h => rw [h]; rfl

-- The records a recovered prepare brings back: those of a commit at or above the floor.
def RecoveredPrepare.items (ds : List (RecoveredDecision I)) (floor : Nat) (p : RecoveredPrepare I K V) :
    List (Item I K V) :=
  match decisionFor ds p.id with
  | some ⟨_, _, some (start, _), gen⟩ =>
    if floor ≤ gen then stampItems (.prepared p.id) start p.writes else []
  | _ => []

theorem items_resolveRecovered (s : Store I K V) (p : RecoveredPrepare I K V) :
    (resolveRecovered size ds s p).active.items = p.items ds s.floor ++ s.active.items := by
  rw [resolveRecovered]
  split
  case h_1 h =>
    simp only [RecoveredPrepare.items, h]
    split <;> rfl
  case h_2 h => simp only [RecoveredPrepare.items, h, nil_append]
  case h_3 h => simp only [RecoveredPrepare.items, h, nil_append]

theorem live_foldl (s : Store I K V) (ps : List (RecoveredPrepare I K V)) :
    (ps.foldl (resolveRecovered size ds) s).gens.live.Perm
      ((ps.filter fun p => (decisionFor ds p.id).isNone).map (·.gen) ++ s.gens.live) := by
  induction ps generalizing s with
  | nil => exact .refl _
  | cons p ps ih =>
    rw [foldl_cons]
    refine (ih _).trans ?_
    rw [live_resolveRecovered, filter_cons]
    split
    · exact perm_middle
    · exact .refl _

theorem items_foldl (s : Store I K V) (ps : List (RecoveredPrepare I K V)) :
    (ps.foldl (resolveRecovered size ds) s).active.items.Perm
      (ps.flatMap (RecoveredPrepare.items ds s.floor) ++ s.active.items) := by
  induction ps generalizing s with
  | nil => exact .refl _
  | cons p ps ih =>
    rw [foldl_cons]
    refine (ih _).trans ?_
    rw [items_resolveRecovered, (sameLog_resolveRecovered s p).floor, flatMap_cons, ← append_assoc]
    exact List.Perm.append_right _ perm_append_comm

theorem tombs_foldl (s : Store I K V) (ps : List (RecoveredPrepare I K V)) :
    (ps.foldl (resolveRecovered size ds) s).gens.tombs = s.gens.tombs ++ ps.flatMap fun p =>
      ((decisionFor ds p.id).map fun d => ⟨p.id, p.gen, d.gen, false, false⟩).toList := by
  induction ps generalizing s with
  | nil => simp
  | cons p ps ih =>
    rw [foldl_cons, ih, tombs_resolveRecovered, flatMap_cons, append_assoc]

theorem byKey_resolveRecovered (s : Store I K V) (p : RecoveredPrepare I K V) (k : Nat × K) :
    (resolveRecovered size ds s p).registry.byKey.lookup k =
      if (decisionFor ds p.id).isNone ∧ ∃ w ∈ p.writes, (w.cf, w.key) = k then some p.id
      else s.registry.byKey.lookup k := by
  rw [resolveRecovered]
  split
  case h_1 h => simp only [h, Option.isNone_some, Bool.false_eq_true, false_and, if_false]; split <;> rfl
  case h_2 h => simp only [h, Option.isNone_some, Bool.false_eq_true, false_and, if_false]
  case h_3 h =>
    simp only [h, Option.isNone_none, true_and]
    exact Registry.lookup_reserves p.id p.writes s.registry.byKey k

theorem byKey_foldl_of_not_mem (s : Store I K V) (ps : List (RecoveredPrepare I K V))
    (h : ∀ p ∈ ps, (decisionFor ds p.id).isNone → ¬ ∃ w ∈ p.writes, (w.cf, w.key) = k) :
    (ps.foldl (resolveRecovered size ds) s).registry.byKey.lookup k = s.registry.byKey.lookup k := by
  induction ps generalizing s with
  | nil => rfl
  | cons p ps ih =>
    rw [foldl_cons, ih _ fun q hq => h q (mem_cons_of_mem _ hq), byKey_resolveRecovered]
    exact if_neg fun hk => h p mem_cons_self hk.1 hk.2

theorem byKey_foldl (s : Store I K V) (ps : List (RecoveredPrepare I K V)) (hp : p ∈ ps)
    (hd : (decisionFor ds p.id).isNone) (hk : ∃ w ∈ p.writes, (w.cf, w.key) = k)
    (h : ∀ q ∈ ps, (decisionFor ds q.id).isNone → (∃ w ∈ q.writes, (w.cf, w.key) = k) → q.id = p.id) :
    (ps.foldl (resolveRecovered size ds) s).registry.byKey.lookup k = some p.id := by
  induction ps generalizing s p with
  | nil => cases hp
  | cons q ps ih =>
    have hrest := fun q' hq => h q' (mem_cons_of_mem q hq)
    rw [foldl_cons]
    by_cases hother : ∃ q' ∈ ps, (decisionFor ds q'.id).isNone ∧ ∃ w ∈ q'.writes, (w.cf, w.key) = k
    · obtain ⟨q', hq', hd', hk'⟩ := hother
      have hid := hrest q' hq' hd' hk'
      rw [ih _ hq' hd' hk' (hid.symm ▸ hrest), hid]
    · have hq : p = q := by
        rcases mem_cons.mp hp with hp | hp
        · exact hp
        · exact absurd ⟨p, hp, hd, hk⟩ hother
      subst hq
      rw [byKey_foldl_of_not_mem _ _ fun q' hq hd hk => hother ⟨q', hq, hd, hk⟩, byKey_resolveRecovered]
      exact if_pos ⟨hd, hk⟩

structure Reopened (size : List (WriteEntry K V) → Nat) (log : List (File I K V)) (data : List (Item I K V))
    (low most : Nat) (s : Store I K V) : Prop where
  once : ((prepares log).map RecoveredPrepare.id).Nodup
  files : s.files = log ++ [⟨s.gen, []⟩]
  tables : s.tables = data
  floor : s.floor = low
  le : low ≤ s.gen
  gens : s.active.gens = log.map File.gen ++ [s.gen]
  items : s.active.items.Perm
    ((prepares log).flatMap (RecoveredPrepare.items (decisions log) low) ++ replayed low log)
  imms : s.imms = []
  registered : ∀ p ∈ prepares log, s.registry.byId.lookup p.id =
    if (decisionFor (decisions log) p.id).isNone then some (p.entry size) else none
  owners : ∀ p ∈ prepares log, (decisionFor (decisions log) p.id).isNone → ∀ w ∈ p.writes,
    (∀ q ∈ prepares log, (decisionFor (decisions log) q.id).isNone →
      (∃ w' ∈ q.writes, (w'.cf, w'.key) = (w.cf, w.key)) → q.id = p.id) →
    s.registry.byKey.lookup (w.cf, w.key) = some p.id
  known : ∀ id e, s.registry.byId.lookup id = some e → ∃ p ∈ prepares log, p.id = id
  retiring : s.registry.retiring = []
  maxBytes : s.registry.maxBytes = most
  flushed : s.gens.flushed = []
  live : s.gens.live.Perm
    (((prepares log).filter fun p => (decisionFor (decisions log) p.id).isNone).map (·.gen))
  tombs : s.gens.tombs = (prepares log).flatMap fun p =>
    ((decisionFor (decisions log) p.id).map fun d => ⟨p.id, p.gen, d.gen, false, false⟩).toList
  unlinking : s.unlinking = []
  busy : s.busy = none
  poisoned : s.poisoned = false

theorem reopened (h : reopen size files tables floor maxBytes = .ok s) :
    Reopened size files tables floor maxBytes s := by
  obtain ⟨hon, rfl⟩ := reopen_eq_ok h
  have hs : (opened files tables floor maxBytes).SameLog ((prepares files).foldl
    (resolveRecovered size (decisions files)) (opened files tables floor maxBytes)) := sameLog_foldl _ _
  refine
    { once := hon
      files := by rw [hs.files, hs.gen]; rfl
      tables := hs.tables
      floor := hs.floor
      le := by rw [hs.gen]; exact Nat.le_max_right _ _
      gens := by rw [hs.gens, hs.gen]; rfl
      items := items_foldl _ _
      imms := hs.imms
      registered := fun p hp => lookup_foldl_of_mem _ _ hon hp
      owners := fun p hp hd w hw h => byKey_foldl _ _ hp hd ⟨w, hw, rfl⟩ h
      known := fun id e hl => ?_
      retiring := hs.retiring
      maxBytes := hs.maxBytes
      flushed := hs.flushed
      live := (live_foldl _ _).trans (by rw [opened, WalGenState.new, append_nil])
      tombs := tombs_foldl _ _
      unlinking := hs.unlinking
      busy := hs.busy
      poisoned := hs.poisoned }
  by_contra hno
  have hid : id ∉ (prepares files).map RecoveredPrepare.id := fun hid => by
    obtain ⟨p, hp, rfl⟩ := mem_map.mp hid
    exact hno ⟨p, hp, rfl⟩
  rw [lookup_foldl_of_not_mem _ _ hid] at hl
  cases hl

end Recovery

end OndaDb.Prepared.Store

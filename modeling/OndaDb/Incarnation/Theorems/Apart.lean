import OndaDb.Incarnation.Theorems.Routed

namespace OndaDb.Incarnation.State

variable {I N D K V : Type} [DecidableEq N] {s s' : State I N D K V}
variable {unified : Bool} {cfId : N → Nat} {cfDir : N → D}

structure Sound (unified : Bool) (cfDir : N → D) (s : State I N D K V) : Prop where
  owned : s.Owned cfDir
  routed : unified → s.Routed
  backed : unified → s.Backed

namespace Sound

theorem start : (start : State I N D K V).Sound unified cfDir where
  owned := .start
  routed _ := .start
  backed _ := .start

theorem present (h : s.Sound unified cfDir) (hop : s.op = none) (hl : s.catalog.lookup n = some e) :
    ∃ f ∈ s.families, f.id = e.id := by
  obtain ⟨f, hm, _, hid⟩ := (h.owned.present hl).resolve_right fun hs => hs (settled_of_none hop n)
  exact ⟨f, hm, hid⟩

theorem blank (h : s.Sound true cfDir) (hop : s.op = none) (hp : ¬ s.poisoned)
    (hf : s.FreshId cfId name avoid draw) (hm : s.Minted true cfId name avoid draw) :
    s.Blank (s.chooseUnifiedId true cfId name avoid draw) :=
  hf.blank hm ((h.backed rfl).to_covered hp) fun _ _ hl => h.present hop hl

theorem create [DecidableEq D] (h : s.Sound unified cfDir) (he : s.Enabled unified cfId (.create name draw))
    (ho : s.Orderly unified cfId cfDir (.create name draw)) :
    (s.create unified cfId cfDir name draw).Sound unified cfDir where
  owned := h.owned.create he.right.left he.right.right.left ho.left ho.right.left
  routed hu := by
    subst hu
    exact (h.routed rfl).create (h.blank he.right.left he.left (ho.right.right rfl) he.right.right.right)
      he.right.left
  backed hu := (h.backed hu).same rfl rfl rfl rfl rfl rfl rfl rfl

theorem clear (h : s.Sound unified cfDir) (he : s.Enabled unified cfId (.clear name draw))
    (ho : s.Orderly unified cfId cfDir (.clear name draw)) :
    (s.retire name fun e => some (s.chooseUnifiedId unified cfId name [e.id] draw)).Sound unified cfDir where
  owned := h.owned.retire he.right.left
  routed hu := by
    subst hu
    refine (h.routed rfl).retire fun e hl id hid => ?_
    rw [← Option.some_inj.mp hid]
    exact h.blank he.right.left he.left (ho rfl e hl) (he.right.right.right e hl)
  backed hu := (h.backed hu).retire

theorem exec [DecidableEq I] [DecidableEq D] (h : s.Sound unified cfDir) (he : s.Enabled unified cfId e)
    (ho : s.Orderly unified cfId cfDir e) : (s.exec unified cfId cfDir e).Sound unified cfDir := by
  cases e
  case create => exact h.create he ho
  case clear => exact h.clear he ho
  case drop =>
    exact ⟨h.owned.retire he.right.left, fun hu => (h.routed hu).retire nofun,
      fun hu => (h.backed hu).retire⟩
  case refuse => exact ⟨h.owned.refuse he, fun hu => (h.routed hu).refuse, fun hu => (h.backed hu).refuse⟩
  case edit =>
    exact ⟨h.owned.edit he.right, fun hu => (h.routed hu).edit he.right, fun hu => (h.backed hu).edit⟩
  case close => exact ⟨h.owned.close he, fun hu => (h.routed hu).close, fun hu => (h.backed hu).close⟩
  case unlinkOwn => exact ⟨h.owned.unlinkOwn, fun hu => (h.routed hu).unlinkOwn, fun hu => (h.backed hu).unlinkOwn⟩
  case wipe =>
    exact ⟨h.owned.wipe he ho, fun hu => (h.routed hu).wipe h.owned he, fun hu => (h.backed hu).wipe⟩
  case commit =>
    refine ⟨h.owned.commit, fun hu => ?_, fun hu => ?_⟩
    · subst hu
      exact (h.routed rfl).commit
    · subst hu
      exact (h.backed rfl).commit
  case prepare =>
    exact ⟨h.owned.same rfl rfl rfl rfl rfl, fun hu => (h.routed hu).prepare, fun hu => (h.backed hu).prepare⟩
  case decide => exact ⟨h.owned.decide, fun hu => (h.routed hu).decide, fun hu => (h.backed hu).decide⟩
  case enableFloor =>
    refine ⟨h.owned.same rfl rfl rfl rfl rfl, fun hu => ?_, fun hu => ?_⟩
    · exact (h.routed hu).mono (fun hi => hi.same rfl rfl) (fun hr => hr.same rfl rfl rfl rfl) fun hop _ _ => hop
    · exact (h.backed hu).same rfl rfl rfl rfl rfl rfl rfl rfl
  case rotate =>
    exact ⟨h.owned.same rfl rfl rfl rfl rfl, fun hu => (h.routed hu).rotate, fun hu => (h.backed hu).rotate⟩
  case publish =>
    have hu := he.right.left
    exact ⟨h.owned.publish (h.routed hu), fun hu => (h.routed hu).publish, fun hu => (h.backed hu).publish⟩
  case removeImm =>
    exact ⟨h.owned.same rfl rfl rfl rfl rfl, fun hu => (h.routed hu).tail, fun hu => (h.backed hu).removeImm he⟩
  case flushFail =>
    exact ⟨h.owned.same rfl rfl rfl rfl rfl, fun hu => (h.routed hu).tail, fun hu => (h.backed hu).flushFail⟩
  case sweep =>
    exact ⟨h.owned.same rfl rfl rfl rfl rfl, fun hu => (h.routed hu).sweep, fun hu => (h.backed hu).sweep⟩
  case unlink => exact ⟨h.owned.unlink, fun hu => (h.routed hu).unlink, fun hu => (h.backed hu).unlink⟩
  case rotateOwn =>
    exact ⟨h.owned.rotateOwn he.right, fun hu => (h.routed hu).rotateOwn, fun hu => (h.backed hu).rotateOwn⟩
  case publishOwn =>
    obtain ⟨f, hf, hr, _⟩ := he.right
    exact ⟨h.owned.publishOwn ⟨f, hf, hr⟩, fun hu => (h.routed hu).publishOwn, fun hu => (h.backed hu).publishOwn⟩
  case removeImmOwn =>
    exact ⟨h.owned.removeImmOwn, fun hu => (h.routed hu).removeImmOwn, fun hu => (h.backed hu).removeImmOwn⟩
  case crash => exact ⟨h.owned.crash ho, fun hu => (h.routed hu).crash, fun _ => .crash⟩

theorem of_reachable [DecidableEq I] [DecidableEq D] (h : Reachable .start (OrderlyStep unified cfId cfDir) s) :
    s.Sound unified cfDir := by
  refine h.invariant start fun s s' hs hi => ?_
  obtain ⟨e, he, ho, hs'⟩ := hs
  subst hs'
  exact hi.exec he ho

theorem visible (h : s.Sound unified cfDir) (hm : f ∈ s.families) (hr : r ∈ s.visible unified f) :
    r.inc = f.inc := by
  simp only [State.visible, List.append_assoc, List.mem_append] at hr
  cases hr
  case inr hr => exact h.owned.stored hm r (by simpa [Family.stored] using hr)
  case inl hr =>
    split at hr
    case isFalse => cases hr
    case isTrue hu =>
      obtain ⟨hr, hid⟩ := List.mem_filter.mp hr
      exact ((h.routed hu).known (.mem hr) (.family hm (of_decide_eq_true hid).symm rfl)).symm

end Sound

-- A read through a handle, current or stale, returns only what was committed through handles of the
-- same incarnation.
theorem incarnations_apart [DecidableEq I] [DecidableEq D]
    (h : Reachable .start (OrderlyStep unified cfId cfDir) s) :
    ∀ f ∈ s.families, ∀ r ∈ s.visible unified f, r.inc = f.inc :=
  fun _ hm _ hr => (Sound.of_reachable h).visible hm hr

section Examples

abbrev Runs := State Nat Nat Nat Nat Nat

def dropped (name : Nat) : List (Event Nat Nat Nat Nat) :=
  [.drop name, .edit, .close, .unlinkOwn 0, .wipe]

-- The family is dropped while the shared memtable holds its record, so the next one takes another
-- id; what the stale handle writes stays its own, also after a crash.
def staleWrites : List (Event Nat Nat Nat Nat) :=
  .create 7 0 :: .commit 0 [(1, 10)] :: dropped 7 ++
    [.create 7 100, .commit 0 [(1, 11)], .commit 2 [(1, 12)], .rotate, .commit 0 [(2, 13)], .publish, .removeImm,
      .commit 2 [(2, 14)], .crash fun _ => true]

theorem incarnations_apart_staleWrites :
    (staleWrites.foldl (exec true id id) (.start : Runs)).families.map (·.inc) = [2] ∧
    ∀ f ∈ (staleWrites.foldl (exec true id id) (.start : Runs)).families,
      ∀ r ∈ (staleWrites.foldl (exec true id id) (.start : Runs)).visible true f, r.inc = f.inc := by
  have h : Reachable .start (OrderlyStep true id id) (staleWrites.foldl (exec true id id) (.start : Runs)) :=
    Reachable.start.foldl (P := fun s e => s.Enabled true id e ∧ s.Orderly true id id e)
      (fun _ e he => ⟨e, he.left, he.right, rfl⟩) (by decide +kernel)
  exact ⟨by decide +kernel, incarnations_apart h⟩

def seen (unified : Bool) (events : List (Event Nat Nat Nat Nat)) : List (Nat × List Nat) :=
  let s : Runs := events.foldl (exec unified id id) .start
  s.families.map fun f => (f.inc, (s.visible unified f).map (·.inc))

-- The memtable holds nothing of the dropped family, so its id is taken again.
def reusedId : List (Event Nat Nat Nat Nat) :=
  .create 7 0 :: dropped 7 ++ [.create 7 100, .commit 0 [(1, 11)]]

-- The crash comes after the edit of the drop and before its directory is removed.
def leftDirectory : List (Event Nat Nat Nat Nat) :=
  [.create 7 0, .commit 0 [(1, 10)], .drop 7, .edit, .crash fun _ => true, .create 7 0, .crash fun _ => true]

-- In the unified layout a stale handle writes into the family that was given its id, and in the other
-- layout the logs of a dropped family are replayed into the next one.
theorem incarnations_mix :
    Allowed (exec true id id) (Enabled true id) (.start : Runs) reusedId ∧ seen true reusedId = [(0, [0]), (2, [0])] ∧
    Allowed (exec false id id) (Enabled false id) (.start : Runs) leftDirectory ∧ seen false leftDirectory = [(2, [0])] := by
  decide +kernel

end Examples

end OndaDb.Incarnation.State

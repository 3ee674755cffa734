import OndaDb.Upgrade.Swap

namespace OndaDb.Upgrade

open Plan

namespace Fs

variable {fs : Fs} {a b : Name} {d : Dir}

theorem dir_createDir (x : Name) :
    (fs.step (.createDir a)).dir x = if x = a then some ⟨.unfinished, false⟩ else fs.dir x :=
  Map.lookup_insert_eq ..

theorem dir_removeDir (x : Name) : (fs.step (.removeDir a)).dir x = if x = a then none else fs.dir x :=
  Map.lookup_erase_eq ..

theorem dir_modify (f : Dir → Dir) (x : Name) :
    (fs.modify a f).dir x = if x = a then (fs.dir a).map f else fs.dir x :=
  Map.lookup_modify ..

theorem dir_rename (h : fs.dir a = some d) (x : Name) :
    (fs.step (.rename a b)).dir x = if x = b then some d else if x = a then none else fs.dir x := by
  rw [step, h, Option.elim_some, dir, Map.lookup_insert_eq, Map.lookup_erase_eq]
  rfl

@[simp]
theorem dir_writeJournal (j : Journal) (x : Name) : (fs.step (.writeJournal j)).dir x = fs.dir x :=
  rfl

@[simp]
theorem dir_removeJournal (x : Name) : (fs.step .removeJournal).dir x = fs.dir x :=
  rfl

theorem journal_rename : (fs.step (.rename a b)).journal = fs.journal := by
  rw [step]
  cases fs.dir a <;> rfl

end Fs

-- How far the swap has come; `marked` also says whether the new directory still carries the marker
-- and whether the backup still exists.
inductive Stage
  | source
  | staged (n : Nat)
  | moved (n : Nat)
  | swapped (n : Nat)
  | marked (n : Nat) (marker kept : Bool)
  | finished

structure Stage.Dirs (fs : Fs) (journal : Option Journal) (db : Option Dir) (upgrade : Nat → Option Dir → Prop)
    (backup : Nat → Option Dir → Prop) : Prop where
  journal : fs.journal = journal
  db : fs.dir .db = db
  upgrade : ∀ m, upgrade m (fs.dir (.upgrade m))
  backup : ∀ m, backup m (fs.dir (.backup m))

def original : Dir := ⟨.source, false⟩

def Stale (d : Option Dir) : Prop :=
  ∀ x ∈ d, x.marker = false

def Fs.At (fs : Fs) : Stage → Prop
  | .source => Stage.Dirs fs none (some original) (fun _ _ => True) (fun _ d => d = none)
  | .staged n =>
    Stage.Dirs fs (some ⟨.swapping, n, n⟩) (some original)
      (fun m d => if m = n then d = some ⟨.rebuilt, true⟩ else Stale d) (fun _ d => d = none)
  | .moved n =>
    Stage.Dirs fs (some ⟨.swapping, n, n⟩) none
      (fun m d => if m = n then d = some ⟨.rebuilt, true⟩ else Stale d)
      (fun m d => d = if m = n then some original else none)
  | .swapped n =>
    Stage.Dirs fs (some ⟨.swapping, n, n⟩) (some ⟨.rebuilt, true⟩)
      (fun m d => if m = n then d = none else Stale d) (fun m d => d = if m = n then some original else none)
  | .marked n marker kept =>
    Stage.Dirs fs (some ⟨.done, n, n⟩) (some ⟨.rebuilt, marker⟩)
      (fun _ d => Stale d) (fun m d => d = if m = n ∧ kept then some original else none)
  | .finished =>
    Stage.Dirs fs none (some ⟨.rebuilt, false⟩) (fun _ d => Stale d) (fun _ d => Stale d)

namespace Fs.At

variable {fs : Fs} {n : Nat} {marker kept : Bool}

theorem sweep (h : fs.At .source) (m : Nat) : (fs.step (.removeDir (.upgrade m))).At .source where
  __ := h
  db := (dir_removeDir _).trans h.db
  upgrade _  := trivial
  backup _   := (dir_removeDir _).trans (h.backup _)

theorem createDir (h : fs.At .source) : (fs.step (.createDir (.upgrade n))).At .source where
  __ := h
  db := (dir_createDir _).trans h.db
  upgrade _  := trivial
  backup _   := (dir_createDir _).trans (h.backup _)

theorem modify (h : fs.At .source) (f : Dir → Dir) : (fs.modify (.upgrade n) f).At .source where
  __ := h
  db := (dir_modify ..).trans h.db
  upgrade _  := trivial
  backup _   := (dir_modify ..).trans (h.backup _)

theorem stage (h : fs.At .source) (hn : fs.dir (.upgrade n) = some ⟨.rebuilt, true⟩)
    (hs : ∀ m ≠ n, Stale (fs.dir (.upgrade m))) : (fs.step (.writeJournal ⟨.swapping, n, n⟩)).At (.staged n) where
  journal := rfl
  __ := h
  upgrade m  := by
    split
    case isTrue hm => rw [hm]; exact hn
    case isFalse hm => exact hs m hm

theorem aside (h : fs.At (.staged n)) : (fs.step (.rename .db (.backup n))).At (.moved n) where
  journal := journal_rename.trans h.journal
  db := by rw [dir_rename h.db]; rfl
  upgrade m := by
    rw [dir_rename h.db]
    exact h.upgrade m
  backup m  := by
    rw [dir_rename h.db, h.backup]
    simp

theorem upgrade_eq (h : fs.At (.staged n) ∨ fs.At (.moved n)) : fs.dir (.upgrade n) = some ⟨.rebuilt, true⟩ := by
  rcases h with h | h
  · simpa using h.upgrade n
  · simpa using h.upgrade n

theorem swap (h : fs.At (.moved n)) : (fs.step (.rename (.upgrade n) .db)).At (.swapped n) where
  journal := journal_rename.trans h.journal
  db := by rw [dir_rename (upgrade_eq (.inr h))]; rfl
  upgrade m := by
    rw [dir_rename (upgrade_eq (.inr h))]
    have hm := h.upgrade m
    split
    case isTrue heq => simp [heq]
    case isFalse hne => simpa [hne] using hm
  backup m  := by
    rw [dir_rename (upgrade_eq (.inr h)), h.backup]
    simp

theorem markJournal (h : fs.At (.swapped n)) : (fs.step (.writeJournal ⟨.done, n, n⟩)).At (.marked n true true) where
  journal := rfl
  __ := h
  upgrade m := by
    have hm := h.upgrade m
    split at hm
    case isTrue =>
      rw [dir_writeJournal, hm]
      simp [Stale]
    case isFalse => exact hm
  backup m  := by simpa using h.backup m

theorem unmark (h : fs.At (.marked n marker kept)) : (fs.step (.removeMarker .db)).At (.marked n false kept) where
  __ := h
  db := by
    rw [step, dir_modify, h.db]
    rfl
  upgrade m := by
    rw [step, dir_modify]
    exact h.upgrade m
  backup m  := by
    rw [step, dir_modify]
    exact h.backup m

theorem dropBackup (h : fs.At (.marked n marker kept)) : (fs.step (.removeDir (.backup n))).At (.marked n marker false) where
  __ := h
  db := (dir_removeDir _).trans h.db
  upgrade m := by
    rw [dir_removeDir]
    exact h.upgrade m
  backup m  := by
    rw [dir_removeDir, h.backup]
    by_cases hm : m = n <;> simp [hm]

theorem close (h : fs.At (.marked n false kept)) : (fs.step .removeJournal).At .finished where
  journal := rfl
  __ := h
  upgrade m := h.upgrade m
  backup m  := by
    rw [dir_removeJournal, h.backup]
    intro d hd
    rw [Option.mem_def, Option.ite_none_right_eq_some, Option.some.injEq] at hd
    exact hd.2 ▸ rfl

end Fs.At

def Stage.Holds : Stage → Prop
  | .marked _ _ kept => kept = true
  | .finished => False
  | _ => True

def Fs.Held (fs : Fs) : Prop :=
  ∃ a d, fs.dir a = some d ∧ d.contents = .source

def Fs.Good (fs : Fs) : Prop :=
  ∃ st, fs.At st

def Fs.Kept (fs : Fs) : Prop :=
  ∃ st : Stage, fs.At st ∧ st.Holds

-- The 0.9 directory goes only once the epoch-1 one is in its place and the journal says so.
def Fs.Safe (fs : Fs) (a : FsStep) : Prop :=
  fs.Held → ¬(fs.step a).Held → fs.dir .db = some ⟨.rebuilt, false⟩ ∧ ∃ j ∈ fs.journal, j.state = .done

namespace Fs

variable {fs : Fs} {st : Stage} {n : Nat} {kept : Bool} {steps : List FsStep}

theorem At.held (h : fs.At st) (hs : st.Holds) : fs.Held := by
  cases st
  case source => exact ⟨_, _, h.db, rfl⟩
  case staged n => exact ⟨_, _, h.db, rfl⟩
  case moved n => exact ⟨_, _, (h.backup n).trans (if_pos rfl), rfl⟩
  case swapped n => exact ⟨_, _, (h.backup n).trans (if_pos rfl), rfl⟩
  case marked n m kept => exact ⟨_, _, (h.backup n).trans (if_pos ⟨rfl, hs⟩), rfl⟩
  case finished => exact hs.elim

theorem Kept.good (h : fs.Kept) : fs.Good := by
  obtain ⟨st, hst, -⟩ := h
  exact ⟨st, hst⟩

theorem Kept.held (h : fs.Kept) : fs.Held := by
  obtain ⟨st, hst, hs⟩ := h
  exact hst.held hs

theorem safe_of_kept (h : Passes step Kept steps fs) : Along step Safe steps fs := by
  induction steps generalizing fs
  case nil => trivial
  case cons a as ih => exact ⟨fun _ hgone => absurd h.2.start.held hgone, ih h.2⟩

-- What one piece of a call does: every cut of it leaves a stage of the swap, and no step is unsafe.
structure Sound (steps : List FsStep) (fs : Fs) : Prop where
  good : Passes step Good steps fs
  safe : Along step Safe steps fs

theorem Sound.of_kept (h : Passes step Kept steps fs) : Sound steps fs :=
  ⟨h.mono fun _ => Kept.good, safe_of_kept h⟩

theorem Sound.append (h : Sound steps fs) (h' : Sound more (fs.run steps)) :
    Sound (steps ++ more) fs :=
  ⟨h.good.append h'.good, h.safe.append h'.safe⟩

theorem Sound.nil (h : fs.Good) : Sound [] fs :=
  ⟨h, trivial⟩

theorem At.markDone (h : fs.At (.swapped n)) (s : JournalState) :
    Passes step Kept (markDone ⟨s, n, n⟩) fs ∧ (fs.run (markDone ⟨s, n, n⟩)).At (.marked n false true) :=
  ⟨⟨⟨_, h, trivial⟩, ⟨_, h.markJournal, rfl⟩, ⟨_, h.markJournal.unmark, rfl⟩⟩, h.markJournal.unmark⟩

theorem At.finishMoved (h : fs.At (.moved n)) (s : JournalState) :
    Passes step Kept (.rename (.upgrade n) .db :: Upgrade.markDone ⟨s, n, n⟩) fs ∧
      (fs.run (.rename (.upgrade n) .db :: Upgrade.markDone ⟨s, n, n⟩)).At (.marked n false true) :=
  ⟨⟨⟨_, h, trivial⟩, (h.swap.markDone s).1⟩, (h.swap.markDone s).2⟩

theorem At.finishStaged (h : fs.At (.staged n)) (s : JournalState) :
    Passes step Kept (.rename .db (.backup n) :: .rename (.upgrade n) .db :: Upgrade.markDone ⟨s, n, n⟩) fs ∧
      (fs.run (.rename .db (.backup n) :: .rename (.upgrade n) .db :: Upgrade.markDone ⟨s, n, n⟩)).At
        (.marked n false true) :=
  ⟨⟨⟨_, h, trivial⟩, (h.aside.finishMoved s).1⟩, (h.aside.finishMoved s).2⟩

end Fs

end OndaDb.Upgrade

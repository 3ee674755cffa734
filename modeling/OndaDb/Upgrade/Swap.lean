import OndaDb.Error
import OndaDb.Lib.Map
import OndaDb.Lib.Plan
import OndaDb.Lib.Run

-- The format upgrade from outside: the directories it renames and removes, and its journal.
namespace OndaDb.Upgrade

-- The siblings that the protocol names; an upgrade and its backup carry one nonce.
inductive Name
  | db
  | upgrade (nonce : Nat)
  | backup (nonce : Nat)
  deriving DecidableEq

inductive Contents
  | source
  -- A rebuild without its catalog, or with one that was not verified.
  | unfinished
  -- A complete, verified epoch-1 database.
  | rebuilt
  -- The empty database that an open of a missing directory makes.
  | empty
  deriving DecidableEq

structure Dir where
  contents : Contents
  marker : Bool
  deriving DecidableEq

def Dir.isOnda09 (d : Dir) : Bool :=
  d.contents = .source

def Dir.catalogComplete (d : Dir) : Bool :=
  d.contents = .rebuilt

inductive JournalState
  | swapping
  | done
  deriving DecidableEq

structure Journal where
  state : JournalState
  upgrade : Nat
  backup : Nat
  deriving DecidableEq

structure Fs where
  dirs : Map Name Dir
  journal : Option Journal
  deriving DecidableEq

inductive FsStep
  | createDir (a : Name)
  | writeMarker (a : Name)
  -- The tables, the catalog behind them, and their verification.
  | build (a : Name) (verified : Bool)
  | rename (a b : Name)
  | removeDir (a : Name)
  | removeMarker (a : Name)
  | writeJournal (j : Journal)
  | removeJournal
  -- A directory that an open found missing.
  | createDb
  deriving DecidableEq

namespace Fs

variable (fs : Fs)

def dir (a : Name) : Option Dir :=
  fs.dirs.lookup a

def modify (a : Name) (f : Dir → Dir) : Fs :=
  { fs with dirs := fs.dirs.modify a f }

def step : FsStep → Fs
  | .createDir a => { fs with dirs := fs.dirs.insert a ⟨.unfinished, false⟩ }
  | .writeMarker a => fs.modify a ({ · with marker := true })
  | .build a verified => fs.modify a ({ · with contents := if verified then .rebuilt else .unfinished })
  | .rename a b => (fs.dir a).elim fs fun d => { fs with dirs := (fs.dirs.erase a).insert b d }
  | .removeDir a => { fs with dirs := fs.dirs.erase a }
  | .removeMarker a => fs.modify a ({ · with marker := false })
  | .writeJournal j => { fs with journal := some j }
  | .removeJournal => { fs with journal := none }
  | .createDb => { fs with dirs := fs.dirs.insert .db ⟨.empty, false⟩ }

def run (steps : List FsStep) : Fs :=
  steps.foldl step fs

end Fs

inductive Recovered
  | completed
  | rolledBack
  deriving DecidableEq

def markDone (j : Journal) : List FsStep :=
  [.writeJournal { j with state := .done }, .removeMarker .db]

section

variable (path : String)

def allThreeExist : OndaError :=
  .corruption (s!"format upgrade of {path}: the database, its backup and the upgrade " ++
    "directory all exist; resolve by hand (the backup is the 0.9 original)")

def notComplete : OndaError :=
  .corruption (s!"format upgrade of {path}: journal says swapping, the backup exists, but the " ++
    "database directory is not a complete epoch-1 database; resolve by hand")

def recoverLocked (fs : Fs) (j : Journal) : Except OndaError (List FsStep × Recovered) :=
  let p := fs.dir .db
  let u := fs.dir (.upgrade j.upgrade)
  let b := fs.dir (.backup j.backup)
  if j.state = .done then .ok ([.removeMarker .db], .completed)
  else if u.any Dir.catalogComplete then
    if p.isSome ∧ b.isSome then .error (allThreeExist path)
    else
      let aside := if p.isSome then [.rename .db (.backup j.backup)] else []
      .ok (aside ++ .rename (.upgrade j.upgrade) .db :: markDone j, .completed)
  else if u.isNone ∧ p.isSome ∧ b.isSome then
    if p.any Dir.isOnda09 ∨ ¬p.any Dir.catalogComplete then .error (notComplete path)
    else .ok (markDone j, .completed)
  else
    let back := if p.isNone ∧ b.isSome then [.rename (.backup j.backup) .db] else []
    let drop := if u.isSome then [.removeDir (.upgrade j.upgrade)] else []
    .ok (back ++ drop ++ [.removeJournal], .rolledBack)

def interruptedReadOnly : OndaError :=
  .invalidArgs (s!"{path}: a format upgrade was interrupted mid-swap; a read-write " ++
    "open completes or rolls it back")

def resolveInterrupted (readOnly : Bool) (fs : Fs) : Except OndaError (List FsStep × Option Journal) :=
  match fs.journal with
  | none => .ok ([], none)
  | some j =>
    if readOnly then
      if j.state = .done then .ok ([], none) else .error (interruptedReadOnly path)
    else do
      let (steps, recovered) ← recoverLocked path fs j
      .ok (steps, if recovered = .completed then some j else none)

end

def finalize (keepBackup : Bool) (fs : Fs) (j : Journal) : List FsStep :=
  (if !keepBackup ∧ (fs.dir (.backup j.backup)).isSome then [.removeDir (.backup j.backup)] else []) ++
    [.removeJournal]

inductive FormatUpgrade
  | forbid
  | readOnlyLegacy
  | auto
  deriving DecidableEq

structure Options where
  formatUpgrade : FormatUpgrade
  readOnly : Bool
  keepBackup : Bool
  deriving DecidableEq

-- What a call meets: the nonce it mints, and whether the preflight, the verification of the rebuild
-- and the epoch-1 open succeed.
structure Outside where
  nonce : Nat
  preflight : Bool
  verified : Bool
  opens : Bool
  deriving DecidableEq

def staleUpgrades (fs : Fs) : List Nat :=
  fs.dirs.entries.filterMap fun e =>
    match e.1 with
    | .upgrade nonce => if e.2.marker then some nonce else none
    | _ => none

def sweepStaleUpgradeDirs (fs : Fs) : List FsStep :=
  (staleUpgrades fs).map fun nonce => .removeDir (.upgrade nonce)

def swap (nonce : Nat) : List FsStep :=
  let j : Journal := ⟨.swapping, nonce, nonce⟩
  [.writeJournal j, .rename .db (.backup nonce), .rename (.upgrade nonce) .db] ++ markDone j

def runUpgrade (x : Outside) (fs : Fs) : List FsStep × Option Journal :=
  let sweep := sweepStaleUpgradeDirs fs
  let u := Name.upgrade x.nonce
  if !x.preflight ∨ ((fs.run sweep).dir u).isSome then (sweep, none)
  else
    let stage := sweep ++ [.createDir u, .writeMarker u, .build u x.verified]
    if x.verified then (stage ++ swap x.nonce, some ⟨.done, x.nonce, x.nonce⟩)
    else (stage ++ [.removeDir u], none)

inductive Outcome
  | failed
  | opened (d : Dir) (writable : Bool)
  | returned
  deriving DecidableEq

-- `DB::open_epoch1` and the finalizing of what was resumed or just upgraded.
def openEpoch1 (o : Options) (x : Outside) (fs : Fs) (resumed : Option Journal) : List FsStep × Outcome :=
  if !x.opens then ([], .failed)
  else
    let create := if (fs.dir .db).isSome then [] else [.createDb]
    let fs := fs.run create
    let drop := (resumed.map (finalize o.keepBackup fs)).getD []
    (create ++ drop, ((fs.run drop).dir .db).elim .failed (.opened · !o.readOnly))

def openLegacy (o : Options) (x : Outside) (fs : Fs) (d : Dir) : List FsStep × Outcome :=
  if o.formatUpgrade = .forbid then ([], .failed)
  else if o.formatUpgrade = .readOnlyLegacy ∨ o.readOnly then ([], .opened d false)
  else
    let (steps, upgraded) := runUpgrade x fs
    match upgraded with
    | none => (steps, .failed)
    | some j =>
      let (rest, outcome) := openEpoch1 o x (fs.run steps) (some j)
      (steps ++ rest, outcome)

def openObserved (path : String) (o : Options) (x : Outside) (fs : Fs) : List FsStep × Outcome :=
  match resolveInterrupted path o.readOnly fs with
  | .error _ => ([], .failed)
  | .ok (resolve, resumed) =>
    let fs := fs.run resolve
    let (rest, outcome) :=
      match (fs.dir .db).filter Dir.isOnda09 with
      | none => openEpoch1 o x fs resumed
      | some d => openLegacy o x fs d
    (resolve ++ rest, outcome)

def upgradeObserved (path : String) (o : Options) (x : Outside) (fs : Fs) : List FsStep × Outcome :=
  match resolveInterrupted path o.readOnly fs with
  | .error _ => ([], .failed)
  | .ok (resolve, some j) => (resolve ++ finalize o.keepBackup (fs.run resolve) j, .returned)
  | .ok (resolve, none) =>
    let fs₁ := fs.run resolve
    if (fs₁.dir .db).any Dir.isOnda09 then
      let (steps, upgraded) := runUpgrade x fs₁
      match upgraded with
      | none => (resolve ++ steps, .failed)
      | some j => (resolve ++ (steps ++ finalize o.keepBackup (fs₁.run steps) j), .returned)
    else (resolve, .returned)

inductive Entry
  | «open»
  | upgrade
  deriving DecidableEq

structure Call where
  entry : Entry
  options : Options
  outside : Outside
  deriving DecidableEq

def Call.plan (path : String) (c : Call) (fs : Fs) : List FsStep × Outcome :=
  match c.entry with
  | .open => openObserved path c.options c.outside fs
  | .upgrade => upgradeObserved path c.options c.outside fs

def Call.Writes (c : Call) : Prop :=
  c.options.readOnly = false

def CallStep (path : String) (fs fs' : Fs) : Prop :=
  ∃ c : Call, ∃ k : Option Nat, fs' = Plan.cut Fs.step (c.plan path fs).1 k fs

def legacy : Fs :=
  ⟨(∅ : Map Name Dir).insert .db ⟨.source, false⟩, none⟩

end OndaDb.Upgrade

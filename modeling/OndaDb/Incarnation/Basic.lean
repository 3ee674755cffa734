import OndaDb.Prepared.Store

-- The incarnations of column families: create, drop and clear beside commits, flushes and crashes.
namespace OndaDb.Incarnation

open Prepared (WalGenState)

-- A write as it is stored. `inc` is the incarnation whose handle it was committed through; it is not
-- stored and nothing reads it.
structure Record (K V : Type) where
  inc : Nat
  cf : Nat
  key : K
  value : V
  deriving DecidableEq

structure Log (K V : Type) where
  gen : Nat
  items : List (Record K V)
  deriving DecidableEq

inductive Frame (I K V : Type)
  | data (items : List (Record K V))
  | prepare (id : I) (items : List (Record K V))
  | decision (id : I) (commit : Bool)
  deriving DecidableEq

def Frame.dataItems : Frame I K V → List (Record K V)
  | data items => items
  | _ => []

def Frame.preparedItems : Frame I K V → List (Record K V)
  | prepare _ items => items
  | _ => []

structure File (I K V : Type) where
  gen : Nat
  frames : List (Frame I K V)
  deriving DecidableEq

namespace File

def data (file : File I K V) : List (Record K V) :=
  file.frames.flatMap Frame.dataItems

def prepared (file : File I K V) : List (Record K V) :=
  file.frames.flatMap Frame.preparedItems

end File

-- A memtable and the generations of the log that cover it; a flush publishes a sealed one before it
-- unlinks its generations.
structure Mem (K V : Type) where
  items : List (Record K V)
  gens : List Nat
  published : Bool
  deriving DecidableEq

-- An object of a family, current or stale. Its own log is gone once its resources are closed.
structure Family (N K V : Type) where
  inc : Nat
  name : N
  id : Nat
  wal : Option Nat
  mem : Mem K V
  imms : List (Mem K V)
  tables : List (Record K V)
  retiring : Bool
  deriving DecidableEq

structure Entry (K V : Type) where
  inc : Nat
  id : Nat
  tables : List (Record K V)
  deriving DecidableEq

structure PreparedEntry (I K V : Type) where
  id : I
  items : List (Record K V)
  gen : Nat
  deriving DecidableEq

inductive Phase
  | begun
  | edited
  | closed
  deriving DecidableEq

-- A drop or, where it has chosen an id for the next incarnation, a clear.
structure Op (N : Type) where
  name : N
  old : Nat
  fresh : Option Nat
  phase : Phase
  deriving DecidableEq

structure State (I N D K V : Type) where
  catalog : Map N (Entry K V)
  dirs : D → List (Log K V)
  files : List (File I K V)
  floor : Nat
  floorOn : Bool
  families : List (Family N K V)
  nextInc : Nat
  op : Option (Op N)
  active : Mem K V
  gen : Nat
  imms : List (Mem K V)
  prepared : List (PreparedEntry I K V)
  retiring : List I
  gens : WalGenState I
  unlinking : List (List Nat × List I)
  poisoned : Bool

inductive Event (I N K V : Type)
  -- `draw` is the id that is minted where the derived one is not free.
  | create (name : N) (draw : Nat)
  | drop (name : N)
  | clear (name : N) (draw : Nat)
  | refuse
  | edit
  | close
  | unlinkOwn (gen : Nat)
  | wipe
  | commit (inc : Nat) (writes : List (K × V))
  | prepare (id : I) (writes : List (Nat × K × V))
  | decide (id : I) (commit : Bool)
  | enableFloor
  | rotate
  | publish
  | removeImm
  | flushFail
  | sweep
  | unlink (i : Nat)
  | rotateOwn (inc : Nat)
  | publishOwn (inc : Nat)
  | removeImmOwn (inc : Nat)
  -- What a crash leaves of the unsynced records, and the open after it.
  | crash (keep : Record K V → Bool)

namespace State

variable {I N D K V : Type} [DecidableEq I] [DecidableEq N] [DecidableEq D]

-- Whether the layout is the unified one, the id derived from a name, and the directory of a family.
variable (unified : Bool) (cfId : N → Nat) (cfDir : N → D)

def start : State I N D K V where
  catalog := ∅
  dirs := fun _ => []
  files := [⟨0, []⟩]
  floor := 0
  floorOn := false
  families := []
  nextInc := 0
  op := none
  active := ⟨[], [0], false⟩
  gen := 0
  imms := []
  prepared := []
  retiring := []
  gens := .new
  unlinking := []
  poisoned := false

variable (s : State I N D K V)

def mems : List (Mem K V) :=
  s.imms ++ [s.active]

def sharedItems : List (Record K V) :=
  s.mems.flatMap Mem.items

def visible (f : Family N K V) : List (Record K V) :=
  (if unified then s.sharedItems.filter (·.cf = f.id) else []) ++
    f.mem.items ++ f.imms.flatMap Mem.items ++ f.tables

def registered (f : Family N K V) : Bool :=
  (s.catalog.lookup f.name).any (·.inc = f.inc)

def holdsCf (id : Nat) : Bool :=
  s.sharedItems.any (·.cf = id)

def taken (avoid : List Nat) (id : Nat) : Bool :=
  id ∈ avoid ∨ s.families.any (fun f => s.registered f && f.id = id) ∨ s.holdsCf id

def free (name : N) (avoid : List Nat) : Bool :=
  s.gens.flushed = [] ∧ ¬ s.taken avoid (cfId name)

def chooseUnifiedId (name : N) (avoid : List Nat) (draw : Nat) : Nat :=
  if !unified || s.free cfId name avoid then cfId name else draw

def openLog (gen : Nat) (logs : List (Log K V)) : List (Log K V) :=
  if logs.any (·.gen = gen) then logs else logs ++ [⟨gen, []⟩]

def appendLog (gen : Nat) (items : List (Record K V)) (logs : List (Log K V)) : List (Log K V) :=
  logs.map fun l => if l.gen = gen then { l with items := l.items ++ items } else l

def setDir (d : D) (g : List (Log K V) → List (Log K V)) : State I N D K V :=
  { s with dirs := Function.update s.dirs d (g (s.dirs d)) }

def modifyFamily (inc : Nat) (g : Family N K V → Family N K V) : State I N D K V :=
  { s with families := s.families.map fun f => if f.inc = inc then g f else f }

def createFamily (inc : Nat) (name : N) (id : Nat) : State I N D K V :=
  { s.setDir (cfDir name) (openLog 0) with
    families := s.families ++ [⟨inc, name, id, some 0, ⟨[], [0], false⟩, [], [], false⟩] }

def create (name : N) (draw : Nat) : State I N D K V :=
  let id := s.chooseUnifiedId unified cfId name [] draw
  { s.createFamily cfDir s.nextInc name id with
    catalog := s.catalog.insert name ⟨s.nextInc, id, []⟩
    nextInc := s.nextInc + 1 }

def retire (name : N) (fresh : Entry K V → Option Nat) : State I N D K V :=
  match s.catalog.lookup name with
  | some e => { s.modifyFamily e.inc ({ · with retiring := true }) with
      op := some ⟨name, e.inc, fresh e, .begun⟩ }
  | none => s

def refuse : State I N D K V :=
  match s.op with
  | some o => { s.modifyFamily o.old ({ · with retiring := false }) with op := none }
  | none => s

def edit : State I N D K V :=
  match s.op with
  | some o => { s with
      catalog := match o.fresh with
        | some id => s.catalog.insert o.name ⟨s.nextInc, id, []⟩
        | none => s.catalog.erase o.name
      nextInc := s.nextInc + 1
      op := some { o with phase := .edited } }
  | none => s

def close : State I N D K V :=
  match s.op with
  | some o => { s.modifyFamily o.old ({ · with wal := none }) with op := some { o with phase := .closed } }
  | none => s

def unlinkOwn (gen : Nat) : State I N D K V :=
  match s.op with
  | some o => s.setDir (cfDir o.name) (·.filter (·.gen ≠ gen))
  | none => s

def wipe : State I N D K V :=
  match s.op with
  | some o =>
    match o.fresh, s.catalog.lookup o.name with
    | some id, some e => { s.createFamily cfDir e.inc o.name id with op := none }
    | _, _ => { s with op := none }
  | none => s

def append (frame : Frame I K V) : State I N D K V :=
  { s with files := s.files.map fun file =>
    if file.gen = s.gen then { file with frames := file.frames ++ [frame] } else file }

def addActive (items : List (Record K V)) : State I N D K V :=
  { s with active := { s.active with items := items ++ s.active.items } }

def family (inc : Nat) : Option (Family N K V) :=
  s.families.find? (·.inc = inc)

-- A commit writes under the id of the handle, whether or not that is still current. In the layout
-- with one log for each family a closed handle has none and the commit fails.
def commit (inc : Nat) (writes : List (K × V)) : State I N D K V :=
  match s.family inc with
  | some f =>
    let items := writes.map fun w => ⟨inc, f.id, w.1, w.2⟩
    if unified then (s.append (.data items)).addActive items
    else match f.wal with
      | some gen => (s.setDir (cfDir f.name) (appendLog gen items)).modifyFamily inc fun f =>
          { f with mem := { f.mem with items := items ++ f.mem.items } }
      | none => s
  | none => s

def prepareItems (writes : List (Nat × K × V)) : List (Record K V) :=
  writes.filterMap fun w => (s.family w.1).map fun f => ⟨w.1, f.id, w.2.1, w.2.2⟩

def prepare (id : I) (writes : List (Nat × K × V)) : State I N D K V :=
  let items := s.prepareItems writes
  { s.append (.prepare id items) with
    prepared := s.prepared ++ [⟨id, items, s.gen⟩]
    gens := s.gens.pin s.gen }

def decide (id : I) (commit : Bool) : State I N D K V :=
  match s.prepared.find? (·.id = id) with
  | some p =>
    let s' := s.append (.decision id commit)
    { (if commit then s'.addActive p.items else s') with
      prepared := s.prepared.filter (·.id ≠ id)
      retiring := id :: s.retiring
      gens := s.gens.resolved id p.gen s.gen }
  | none => s

def touchesCf (id : Nat) : Bool :=
  s.prepared.any fun p => p.items.any (·.cf = id)

def rotate : State I N D K V :=
  { s with
    files := s.files ++ [⟨s.gen + 1, []⟩]
    imms := s.imms ++ [s.active]
    active := ⟨[], [s.gen + 1], false⟩
    gen := s.gen + 1 }

-- A family takes the records under its id; those under nobody's id are discarded, and those of a
-- family that retires.
def slice (items : List (Record K V)) (id : Nat) : List (Record K V) :=
  items.filter (·.cf = id)

def takesSlice (f : Family N K V) : Bool :=
  s.registered f && !f.retiring

def installShared (items : List (Record K V)) : State I N D K V :=
  { s with
    families := s.families.map fun f =>
      if s.takesSlice f then { f with tables := slice items f.id ++ f.tables } else f
    catalog := s.catalog.mapValues fun e =>
      if s.families.any (fun f => s.takesSlice f && f.inc = e.inc) then
        { e with tables := slice items e.id ++ e.tables }
      else e }

-- The oldest sealed memtable: one edit holds its tables and the replay floor, then its generations
-- are handed to the pins.
def publish : State I N D K V :=
  match s.imms with
  | imm :: imms =>
    { s.installShared imm.items with
      floor := if s.floorOn then
          max s.floor ((((imms ++ [s.active]).flatMap Mem.gens).min?).getD s.gen)
        else s.floor
      gens := imm.gens.foldl WalGenState.markFlushed s.gens
      imms := { imm with published := true } :: imms }
  | [] => s

def sweep : State I N D K V :=
  let (unlink, retired, gens) := s.gens.sweep
  { s with gens := gens, unlinking := s.unlinking ++ [(unlink, retired)] }

def unlink (i : Nat) : State I N D K V :=
  match s.unlinking[i]? with
  | some (g :: gs, ids) =>
    { s with
      files := s.files.filter (·.gen ≠ g)
      unlinking := s.unlinking.set i (gs, ids) }
  | some ([], ids) =>
    { s with
      retiring := s.retiring.filter (· ∉ ids)
      unlinking := s.unlinking.eraseIdx i }
  | none => s

def rotateOwn (inc : Nat) : State I N D K V :=
  match s.family inc with
  | some f =>
    match f.wal with
    | some gen => (s.setDir (cfDir f.name) (openLog (gen + 1))).modifyFamily inc fun f =>
        { f with
          wal := some (gen + 1)
          mem := ⟨[], [gen + 1], false⟩
          imms := f.imms ++ [f.mem] }
    | none => s
  | none => s

def publishOwn (inc : Nat) : State I N D K V :=
  match s.family inc with
  | some f =>
    match f.imms with
    | imm :: imms =>
      { s.modifyFamily inc (fun f =>
          { f with
            imms := { imm with published := true } :: imms
            tables := imm.items ++ f.tables }) with
        catalog := s.catalog.modify f.name fun e => { e with tables := imm.items ++ e.tables } }
    | [] => s
  | none => s

def removeImmOwn (inc : Nat) : State I N D K V :=
  match s.family inc with
  | some f =>
    match f.imms with
    | imm :: imms => (s.setDir (cfDir f.name) (·.filter (·.gen ∉ imm.gens))).modifyFamily inc
        ({ · with imms := imms })
    | [] => s
  | none => s

def nextGen (gens : List Nat) : Nat :=
  (gens.max?.map (· + 1)).getD 0

def load (name : N) (e : Entry K V) (logs : List (Log K V)) : Family N K V where
  inc := e.inc
  name := name
  id := e.id
  wal := some (nextGen (logs.map Log.gen))
  mem := ⟨logs.flatMap Log.items, logs.map Log.gen ++ [nextGen (logs.map Log.gen)], false⟩
  imms := []
  tables := e.tables
  retiring := false

def prepares (files : List (File I K V)) : List (PreparedEntry I K V) :=
  files.flatMap fun file => file.frames.filterMap fun
    | .prepare id items => some ⟨id, items, file.gen⟩
    | _ => none

def decisions (files : List (File I K V)) (id : I) : List (Nat × Bool) :=
  files.flatMap fun file => file.frames.filterMap fun
    | .decision id' commit => if id' = id then some (file.gen, commit) else none
    | _ => none

def decisionFor (files : List (File I K V)) (id : I) : Option (Nat × Bool) :=
  (decisions files id).foldl (fun best d =>
    if best.any (fun b => d.1 < b.1) then best else some d) none

-- Below the floor neither data nor the records of a decision are replayed.
def replayed (floor : Nat) (files : List (File I K V)) : List (Record K V) :=
  (files.filter (floor ≤ ·.gen)).flatMap File.data ++
    (prepares files).flatMap fun p =>
      if (decisionFor files p.id).any (fun d => d.2 && floor ≤ d.1) then p.items else []

def recoverGens (files : List (File I K V)) : WalGenState I :=
  (prepares files).foldl (fun g p =>
    (decisionFor files p.id).elim (g.pin p.gen) fun d => g.recordPair p.id p.gen d.1) .new

def survivingFrame (keep : Record K V → Bool) : Frame I K V → Frame I K V
  | .data items => .data (items.filter keep)
  | frame => frame

-- A prepare and a decision are synced before the call goes on.
def survivors (keep : Record K V → Bool) (files : List (File I K V)) : List (File I K V) :=
  files.map fun file => { file with frames := file.frames.map (survivingFrame keep) }

def survivingLogs (keep : Record K V → Bool) (logs : List (Log K V)) : List (Log K V) :=
  logs.map fun l => { l with items := l.items.filter keep }

def crash (keep : Record K V → Bool) : State I N D K V :=
  let files := survivors keep s.files
  let gen := max (nextGen (files.map File.gen)) s.floor
  let logs := fun d => survivingLogs keep (s.dirs d)
  { s with
    dirs := fun d =>
      if s.catalog.keys.any (fun n => cfDir n = d) then openLog (nextGen ((logs d).map Log.gen)) (logs d)
      else logs d
    files := files ++ [⟨gen, []⟩]
    families := s.catalog.entries.map fun e => load e.1 e.2 (logs (cfDir e.1))
    op := none
    active := ⟨replayed s.floor files, files.map File.gen ++ [gen], false⟩
    gen := gen
    imms := []
    prepared := (prepares files).filter fun p => (decisionFor files p.id).isNone
    retiring := []
    gens := recoverGens files
    unlinking := []
    poisoned := false }

def exec (s : State I N D K V) : Event I N K V → State I N D K V
  | .create name draw => s.create unified cfId cfDir name draw
  | .drop name => s.retire name fun _ => none
  | .clear name draw => s.retire name fun e => some (s.chooseUnifiedId unified cfId name [e.id] draw)
  | .refuse => s.refuse
  | .edit => s.edit
  | .close => s.close
  | .unlinkOwn gen => s.unlinkOwn cfDir gen
  | .wipe => s.wipe cfDir
  | .commit inc writes => s.commit unified cfDir inc writes
  | .prepare id writes => s.prepare id writes
  | .decide id commit => s.decide id commit
  | .enableFloor => { s with floorOn := true }
  | .rotate => s.rotate
  | .publish => s.publish
  | .removeImm => { s with imms := s.imms.tail }
  | .flushFail => { s with imms := s.imms.tail, poisoned := true }
  | .sweep => s.sweep
  | .unlink i => s.unlink i
  | .rotateOwn inc => s.rotateOwn cfDir inc
  | .publishOwn inc => s.publishOwn inc
  | .removeImmOwn inc => s.removeImmOwn cfDir inc
  | .crash keep => s.crash cfDir keep

def Minted (name : N) (avoid : List Nat) (draw : Nat) : Prop :=
  unified → ¬ s.free cfId name avoid → draw ≠ cfId name ∧ ¬ s.taken avoid draw

def Retirable (name : N) : Prop :=
  ∃ e ∈ s.catalog.lookup name, ¬ s.touchesCf e.id ∧
    ∀ f ∈ s.families, f.inc = e.inc → ∀ m ∈ f.imms, m.published = false

def Enabled (s : State I N D K V) : Event I N K V → Prop
  | .create name draw => ¬ s.poisoned ∧ s.op = none ∧ s.catalog.lookup name = none ∧
      s.Minted unified cfId name [] draw
  | .drop name => ¬ s.poisoned ∧ s.op = none ∧ s.Retirable name
  | .clear name draw => ¬ s.poisoned ∧ s.op = none ∧ s.Retirable name ∧
      ∀ e ∈ s.catalog.lookup name, s.Minted unified cfId name [e.id] draw
  | .refuse => ∃ o ∈ s.op, o.phase = .begun
  | .edit => ¬ s.poisoned ∧ ∃ o ∈ s.op, o.phase = .begun
  | .close => ∃ o ∈ s.op, o.phase = .edited
  | .unlinkOwn _ => ∃ o ∈ s.op, o.phase = .closed
  | .wipe => ∃ o ∈ s.op, o.phase = .closed
  | .commit inc _ => ¬ s.poisoned ∧ ∃ f ∈ s.families, f.inc = inc
  | .prepare id _ => ¬ s.poisoned ∧ unified ∧ s.floorOn ∧ (∀ p ∈ s.prepared, p.id ≠ id) ∧ id ∉ s.retiring
  | .decide id _ => ¬ s.poisoned ∧ ∃ p ∈ s.prepared, p.id = id
  | .enableFloor => ¬ s.poisoned
  | .rotate => ¬ s.poisoned ∧ unified
  | .publish => ¬ s.poisoned ∧ unified ∧ ∃ m ∈ s.imms.head?, m.published = false
  | .removeImm => ∃ m ∈ s.imms.head?, m.published
  | .flushFail => ∃ m ∈ s.imms.head?, m.published = false
  | .sweep => True
  | .unlink i => i < s.unlinking.length
  | .rotateOwn inc => ¬ s.poisoned ∧ ∃ f ∈ s.family inc, f.retiring = false
  | .publishOwn inc => ¬ s.poisoned ∧ ∃ f ∈ s.family inc, f.retiring = false ∧
      ∃ m ∈ f.imms.head?, m.published = false
  | .removeImmOwn inc => ∃ f ∈ s.family inc, ∃ m ∈ f.imms.head?, m.published
  -- An open refuses a log with two prepare records under one id.
  | .crash _ => ((prepares s.files).map (·.id)).Nodup

instance [DecidableEq K] [DecidableEq V] : DecidablePred (s.Enabled unified cfId) :=
  fun e => by cases e <;> (unfold Enabled; try unfold Retirable; try unfold Minted; infer_instance)

def Vacant (d : D) : Prop :=
  ∀ l ∈ s.dirs d, l.items = []

-- No handle carries the id, a stale one included, and nothing is or was prepared under it that is
-- still in the log.
def Unused (id : Nat) : Prop :=
  (∀ f ∈ s.families, f.id ≠ id) ∧ ¬ s.touchesCf id ∧ ∀ file ∈ s.files, ∀ r ∈ file.prepared, r.cf ≠ id

-- The id that a new incarnation would take is unused. A derived one is not taken while a sweep has
-- generations to unlink that would be replayed, and a minted one is in no record of the log.
def FreshId (name : N) (avoid : List Nat) (draw : Nat) : Prop :=
  if s.free cfId name avoid then
    s.Unused (cfId name) ∧ ∀ file ∈ s.files, s.floor ≤ file.gen → ∀ u ∈ s.unlinking, file.gen ∉ u.1
  else
    s.Unused draw ∧ ∀ file ∈ s.files, ∀ r ∈ file.data, r.cf ≠ draw

-- A new incarnation takes a fresh id and a directory of its own without records of another, and
-- there is no crash of a clear that still has to empty the directory.
def Orderly (s : State I N D K V) : Event I N K V → Prop
  | .create name draw => s.Vacant (cfDir name) ∧ (∀ n ∈ s.catalog.keys, cfDir n ≠ cfDir name) ∧
      (unified → s.FreshId cfId name [] draw)
  | .clear name draw => unified → ∀ e ∈ s.catalog.lookup name, s.FreshId cfId name [e.id] draw
  | .wipe => ∀ o ∈ s.op, o.fresh ≠ none → s.Vacant (cfDir o.name)
  | .crash _ => ∀ o ∈ s.op, o.fresh ≠ none → o.phase ≠ .begun → s.Vacant (cfDir o.name)
  | _ => True

instance [DecidableEq K] [DecidableEq V] : DecidablePred (s.Orderly unified cfId cfDir) :=
  fun e => by cases e <;> (unfold Orderly; try unfold FreshId Unused; try unfold Vacant; infer_instance)

def OrderlyStep (s s' : State I N D K V) : Prop :=
  ∃ e, s.Enabled unified cfId e ∧ s.Orderly unified cfId cfDir e ∧ s' = s.exec unified cfId cfDir e

end State

end OndaDb.Incarnation

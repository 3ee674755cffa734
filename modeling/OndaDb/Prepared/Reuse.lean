import OndaDb.Prepared.Run

namespace OndaDb.Prepared

variable {I K V : Type}

def At (files : List (File I K V)) (g : Nat) (f : Frame I K V) : Prop :=
  ∃ file ∈ files, file.gen = g ∧ ∃ b, (f, b) ∈ file.frames

def SyncedAt (files : List (File I K V)) (g : Nat) (f : Frame I K V) : Prop :=
  ∃ file ∈ files, file.gen = g ∧ (f, true) ∈ file.frames

def Frame.owner : Frame I K V → Option (I × Nat)
  | data _ => none
  | prepare id inst _ => some (id, inst)
  | decision id inst _ => some (id, inst)

namespace Store

variable [DecidableEq I] [LinearOrder K] [ToString I] [ToString K]
variable (size : List (WriteEntry K V) → Nat)

def Holds (s : Store I K V) (id : I) : Prop :=
  ∃ g f inst, At s.files g f ∧ f.owner = some (id, inst)

structure Guarded (s : Store I K V) : Prop where
  refused : s.busy = none → ∀ id ws, s.Holds id → ∃ e, s.checkPrepare size id ws = .error e
  -- Whatever a crash leaves of the log opens.
  reopens : ∀ survives, ∃ s', reopen size (survivors survives s.files) s.tables s.floor
    s.registry.maxBytes = .ok s'
  matched : ∀ p ∈ prepares s.files, ∀ d ∈ decisions s.files, p.id = d.id → p.inst = d.inst
  retried : s.busy = none → s.poisoned = false → ∀ p ∈ prepares s.files, ∀ d ∈ decisions s.files,
    p.id = d.id → d.commit.isSome → s.commitRetry p.id = .ok ()

-- The syncs of `prepare` and `abort_prepared` find their handle open, one sweep ends before the next
-- starts, and a crash leaves no decision.
def Orderly (s : Store I K V) : Event I K V → Prop
  | .prepareSync _ => ∀ e i, s.busy = some (.preparing e i false) → s.isOpen e.prepareGen
  | .abortSync _ => ∀ id g, s.busy = some (.aborting id g false) → s.isOpen g
  | .sweep => s.unlinking = []
  | .crash survives => decisions (survivors survives s.files) = []
  | _ => True

end Store

end OndaDb.Prepared

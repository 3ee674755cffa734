import OndaDb.Prepared.Store

-- The bookkeeping of generations by itself, under any calls.
namespace OndaDb.Prepared

variable {I : Type}

structure Pair (I : Type) where
  id : I
  prepareGen : Nat
  decisionGen : Nat
  deriving DecidableEq, Repr

def Tombstone.pair (t : Tombstone I) : Pair I :=
  ⟨t.id, t.prepareGen, t.decisionGen⟩

-- The bookkeeping, every pair it was told of, and the generations its sweeps have returned, in order. The code
-- keeps neither of the last two.
structure Sweeps (I : Type) where
  gens : WalGenState I
  pairs : List (Pair I)
  gone : List Nat

inductive GenOp (I : Type)
  | pin (gen : Nat)
  | resolved (pair : Pair I)
  | recordPair (pair : Pair I)
  | markFlushed (gen : Nat)
  | sweep
  deriving DecidableEq, Repr

namespace Sweeps

def start : Sweeps I :=
  ⟨.new, [], []⟩

def exec (s : Sweeps I) : GenOp I → Sweeps I
  | .pin gen => { s with gens := s.gens.pin gen }
  | .resolved pair =>
    { s with gens := s.gens.resolved pair.id pair.prepareGen pair.decisionGen, pairs := s.pairs ++ [pair] }
  | .recordPair pair =>
    { s with gens := s.gens.recordPair pair.id pair.prepareGen pair.decisionGen, pairs := s.pairs ++ [pair] }
  | .markFlushed gen => { s with gens := s.gens.markFlushed gen }
  | .sweep => { s with gens := s.gens.sweep.2.2, gone := s.gone ++ s.gens.sweep.1 }

-- A prepare is resolved once after it was pinned.
def Enabled (s : Sweeps I) : GenOp I → Prop
  | .resolved pair => pair.prepareGen ∈ s.gens.live
  | _ => True

def Timely (s : Sweeps I) : GenOp I → Prop
  | .resolved pair => pair.prepareGen ∉ s.gone ∧ pair.decisionGen ∉ s.gone
  | .recordPair pair => pair.prepareGen ∉ s.gone ∧ pair.decisionGen ∉ s.gone
  | _ => True

instance (s : Sweeps I) : DecidablePred s.Enabled
  | .resolved pair => inferInstanceAs (Decidable (pair.prepareGen ∈ s.gens.live))
  | .pin _ => .isTrue trivial
  | .recordPair _ => .isTrue trivial
  | .markFlushed _ => .isTrue trivial
  | .sweep => .isTrue trivial

instance (s : Sweeps I) : DecidablePred s.Timely
  | .resolved pair => inferInstanceAs (Decidable (pair.prepareGen ∉ s.gone ∧ pair.decisionGen ∉ s.gone))
  | .recordPair pair => inferInstanceAs (Decidable (pair.prepareGen ∉ s.gone ∧ pair.decisionGen ∉ s.gone))
  | .pin _ => .isTrue trivial
  | .markFlushed _ => .isTrue trivial
  | .sweep => .isTrue trivial

def TimelyStep (s s' : Sweeps I) : Prop :=
  ∃ op, s.Enabled op ∧ s.Timely op ∧ s' = s.exec op

-- What a generation has to wait for: its unresolved prepares, the flush of the decisions of its prepares, and
-- the prepares of its decisions.
structure MayGo (s : Sweeps I) (gen : Nat) : Prop where
  unpinned : gen ∉ s.gens.live
  decided : ∀ p ∈ s.pairs, p.prepareGen = gen → p.decisionGen ∈ s.gens.flushed ∨ p.decisionGen ∈ s.gone
  prepared : ∀ p ∈ s.pairs, p.decisionGen = gen → p.prepareGen = gen ∨ p.prepareGen ∈ s.gone

end Sweeps

end OndaDb.Prepared

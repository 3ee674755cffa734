import OndaDb.Encoding
import OndaDb.RangeTombstone.Basic

-- The range deletes of every source an iterator reads, looked up key by key.
namespace OndaDb

abbrev Comparator := Bytes → Bytes → Ordering

def bytewise : Comparator :=
  List.compareLex compare

def asciiLowercase (b : UInt8) : UInt8 :=
  if 65 ≤ b ∧ b ≤ 90 then b + 32 else b

-- Letters are compared without their case as far as both keys go. Keys that differ in nothing else
-- are told apart by their length and their bytes.
def caseInsensitive : Comparator := fun a b =>
  (go a b).then ((compare a.length b.length).then (bytewise a b))
where
  go : Comparator
    | a :: as, b :: bs => (compare (asciiLowercase a) (asciiLowercase b)).then (go as bs)
    | _,       _ => .eq

-- A cursor over the fragments of one source. It only moves inside its window. The bounds of a
-- source that families share start with the 8 bytes of the family's id.
structure FragCursor where
  frags : List (Fragment Bytes)
  idx : Nat
  windowStart : Nat
  windowEnd : Nat
  keyPrefix : Option Bytes
  deriving DecidableEq, Repr

namespace FragCursor

def compare (c : FragCursor) (cmp : Comparator) (bound key : Bytes) : Ordering :=
  match c.keyPrefix with
  | some p => (bytewise (bound.take 8) p).then (cmp (bound.drop 8) key)
  | none => cmp bound key

def seek (c : FragCursor) (cmp : Comparator) (key : Bytes) : FragCursor :=
  let past (f : Fragment Bytes) := (c.compare cmp f.stop key).isLE
  { c with idx := c.frags.walkDown past c.windowStart (c.frags.walkUp past c.windowEnd c.idx) }

def current (c : FragCursor) (cmp : Comparator) (key : Bytes) (readSeq : Nat) : Option Nat :=
  if c.idx = c.windowEnd then none else do
    let f ← c.frags[c.idx]?
    if (c.compare cmp f.start key).isGT then none else f.visibleSeq readSeq

def coveringSeq (c : FragCursor) (cmp : Comparator) (key : Bytes) (readSeq : Nat) :
    Option Nat × FragCursor :=
  ((c.seek cmp key).current cmp key readSeq, c.seek cmp key)

end FragCursor

-- A fragment set as it is handed to a mask: with the comparator that orders it, the bounds of the
-- scan, and the prefix of its keys if families share it.
structure Pushed where
  frags : List (Fragment Bytes)
  cmp : Comparator
  lower : Option Bytes
  upper : Option Bytes
  keyPrefix : Option Bytes

namespace Pushed

def windowStart (p : Pushed) : Nat :=
  p.lower.elim 0 fun k => p.frags.partitionPoint fun f => (p.cmp f.stop k).isLE

def windowEnd (p : Pushed) : Nat :=
  p.upper.elim p.frags.length fun k => p.frags.partitionPoint fun f => (p.cmp f.start k).isLT

def cursor (p : Pushed) : FragCursor where
  frags := p.frags
  idx := p.windowStart
  windowStart := p.windowStart
  windowEnd := p.windowEnd
  keyPrefix := p.keyPrefix

end Pushed

structure RangeMask where
  sources : List FragCursor
  deriving DecidableEq, Repr

namespace RangeMask

def empty : RangeMask where
  sources := []

def pushSnapshot (m : RangeMask) (p : Pushed) : RangeMask :=
  if p.windowStart < p.windowEnd then ⟨m.sources ++ [p.cursor]⟩ else m

def coveringSeq (m : RangeMask) (cmp : Comparator) (key : Bytes) (readSeq : Nat) :
    Option Nat × RangeMask :=
  let answers := m.sources.map (·.coveringSeq cmp key readSeq)
  (answers.foldl (fun best a => a.1.elim best best.newer) none, ⟨answers.map Prod.snd⟩)

def answers (cmp : Comparator) : RangeMask → List (Bytes × Nat) → List (Option Nat)
  | _, [] => []
  | m, (key, seq) :: qs => (m.coveringSeq cmp key seq).1 :: answers cmp (m.coveringSeq cmp key seq).2 qs

end RangeMask

end OndaDb

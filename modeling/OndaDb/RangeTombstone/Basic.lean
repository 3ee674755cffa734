import OndaDb.Lib.Search

namespace OndaDb

-- User keys are compared by the column family's comparator, whose contract makes them a linear
-- order: it is total, and only identical keys compare equal.
variable {K : Type} [LinearOrder K]

structure Span (K : Type) where
  start : K
  stop : K
  seq : Nat
  deriving DecidableEq, Repr

-- One durable fragment: a half-open interval and every sequence number that covers it, newest
-- first.
structure Fragment (K : Type) where
  start : K
  stop : K
  seqs : List Nat
  deriving DecidableEq, Repr

namespace Fragment

def maxSeq (f : Fragment K) : Nat :=
  f.seqs.head?.getD 0

def minSeq (f : Fragment K) : Nat :=
  f.seqs.getLast?.getD 0

def visibleSeq (f : Fragment K) (readSeq : Nat) : Option Nat :=
  f.seqs.find? (· ≤ readSeq)

end Fragment

def clipLow (lower : Option K) (k : K) : K :=
  match lower with
  | some l => if k < l then l else k
  | none => k

def clipHigh (upper : Option K) (k : K) : K :=
  match upper with
  | some u => if u < k then u else k
  | none => k

def Span.bounds (lower upper : Option K) (s : Span K) : List K :=
  let a := clipLow lower s.start
  let b := clipHigh upper s.stop
  if b ≤ a then [] else [a, b]

def fragmentBounds (spans : List (Span K)) (lower upper : Option K) : List K :=
  spans.flatMap (Span.bounds lower upper) |>.insertionSort (· ≤ ·) |>.dedup

def coveringSeqs (spans : List (Span K)) (a b : K) : List Nat :=
  spans.filter (fun s => s.start ≤ a ∧ b ≤ s.stop) |>.map Span.seq |>.insertionSort (· ≥ ·) |>.dedup

-- Appends the fragment over `[a, b)` to `out`, which is kept in reverse: its head is the fragment
-- emitted last.
def pushFragment (seqs : List Nat) (a b : K) (out : List (Fragment K)) : List (Fragment K) :=
  if seqs = [] then out else
    match out with
    | [] => [⟨a, b, seqs⟩]
    | prev :: out =>
      if prev.seqs = seqs ∧ prev.stop = a
      then { prev with stop := b } :: out
      else ⟨a, b, seqs⟩ :: prev :: out

def fragmentSpans (spans : List (Span K)) (lower upper : Option K) : List (Fragment K) :=
  go [] (fragmentBounds spans lower upper) |>.reverse
where
  go (out : List (Fragment K)) : List K → List (Fragment K)
    | a :: b :: bs => go (pushFragment (coveringSeqs spans a b) a b out) (b :: bs)
    | _ => out

def spansOfFragments (frags : List (Fragment K)) : List (Span K) :=
  frags.flatMap fun f => f.seqs.map fun seq => ⟨f.start, f.stop, seq⟩

def Fragment.clip (lower upper : Option K) (f : Fragment K) : Option (Fragment K) :=
  if clipHigh upper f.stop ≤ clipLow lower f.start then none
  else some ⟨clipLow lower f.start, clipHigh upper f.stop, f.seqs⟩

def clipFragments (frags : List (Fragment K)) (lower upper : Option K) : List (Fragment K) :=
  frags.filterMap (Fragment.clip lower upper)

def coveringSeqIn (frags : List (Fragment K)) (key : K) (readSeq : Nat) : Option Nat :=
  match frags[frags.partitionPoint (fun f => f.stop ≤ key)]? with
  | some f => if key < f.start then none else f.visibleSeq readSeq
  | none => none

structure RangeSummary (K : Type) where
  count : Nat
  minSeq : Nat
  maxSeq : Nat
  minKey : Option K
  maxKey : Option K
  deriving DecidableEq, Repr

def summarize (frags : List (Fragment K)) : RangeSummary K where
  count := frags.length
  minSeq := (frags.map Fragment.minSeq).min?.getD 0
  maxSeq := (frags.map Fragment.maxSeq).max?.getD 0
  minKey := frags.head?.map Fragment.start
  maxKey := frags.getLast?.map Fragment.stop

structure RangeTombstoneSet (K : Type) where
  spans : List (Span K)
  prefixMaxEnd : List K
  deriving DecidableEq, Repr

namespace RangeTombstoneSet

def empty : RangeTombstoneSet K where
  spans := []
  prefixMaxEnd := []

-- The running maxima of `stop` over `spans`, started with the maximum of what precedes them.
def runningMax : Option K → List (Span K) → List K
  | _,       [] => []
  | running, s :: ss =>
    let m := match running with
      | some m => if s.stop ≤ m then m else s.stop
      | none => s.stop
    m :: runningMax (some m) ss

def add (t : RangeTombstoneSet K) (start stop : K) (seq : Nat) : RangeTombstoneSet K :=
  let at' := t.spans.partitionPoint (fun s => s.start ≤ start)
  let spans := t.spans.insertIdx at' ⟨start, stop, seq⟩
  let kept := t.prefixMaxEnd.take at'
  { spans, prefixMaxEnd := kept ++ runningMax kept.getLast? (spans.drop at') }

def scan (t : RangeTombstoneSet K) (key : K) (readSeq : Nat) (best : Option Nat) : Nat → Option Nat
  | 0 => best
  | i + 1 =>
    match t.prefixMaxEnd[i]?, t.spans[i]? with
    | some m, some s =>
      if m ≤ key then best
      else scan t key readSeq (if s.seq ≤ readSeq ∧ key < s.stop then best.newer s.seq else best) i
    | _, _ => best

def coveringSeq (t : RangeTombstoneSet K) (key : K) (readSeq : Nat) : Option Nat :=
  t.scan key readSeq none (t.spans.partitionPoint (fun s => s.start ≤ key))

def fragments (t : RangeTombstoneSet K) (lower upper : Option K) : List (Fragment K) :=
  fragmentSpans t.spans lower upper

end RangeTombstoneSet

end OndaDb

import Mathlib.Data.List.Basic
import Mathlib.Order.Lattice

-- An append-only log of items, each written as one self-delimiting frame. `next` reads the frame
-- at the front of some bytes; what it does on bytes that are no frame is left open, but a frame
-- cut short never reads as one.
structure Framing (B P : Type) where
  encode : P → List B
  next : List B → Option (P × List B)
  Fits : P → Prop
  shrinks : next b = some (p, r) → r.length < b.length
  next_encode : Fits p → next (encode p ++ r) = some (p, r)
  next_torn : Fits p → t <+: encode p → t ≠ encode p → next t = none

namespace Framing

open List

variable {B P : Type} (F : Framing B P)

def scan (b : List B) : List P × List B :=
  match _h : F.next b with
  | none => ([], b)
  | some (p, r) => (p :: (scan r).1, (scan r).2)
termination_by b.length
decreasing_by all_goals exact F.shrinks ‹_›

variable {F} {b t : List B} {p : P} {ps : List P}

theorem scan_of_none (h : F.next b = none) : F.scan b = ([], b) := by
  rw [scan]
  split
  case h_1 => rfl
  case h_2 h' => simp [h] at h'

theorem scan_of_some (h : F.next b = some (p, r)) :
    F.scan b = (p :: (F.scan r).1, (F.scan r).2) := by
  rw [scan]
  split
  case h_1 h' => simp [h] at h'
  case h_2 h' =>
    rw [h, Option.some.injEq, Prod.mk.injEq] at h'
    rw [h'.1, h'.2]

theorem scan_torn (hf : F.Fits p) (ht : t <+: F.encode p) (hn : t ≠ F.encode p) :
    F.scan t = ([], t) :=
  scan_of_none (F.next_torn hf ht hn)

theorem scan_encode_append (hf : F.Fits p) (t : List B) :
    F.scan (F.encode p ++ t) = (p :: (F.scan t).1, (F.scan t).2) :=
  scan_of_some (F.next_encode hf)

theorem scan_encodes_append (hf : ∀ p ∈ ps, F.Fits p) (t : List B) :
    F.scan (ps.flatMap F.encode ++ t) = (ps ++ (F.scan t).1, (F.scan t).2) := by
  induction ps with
  | nil => simp
  | cons p ps ih =>
    rw [flatMap_cons, append_assoc, scan_encode_append (hf p (by simp)),
      ih fun q hq => hf q (mem_cons_of_mem _ hq)]
    rfl

def Torn (F : Framing B P) (t : List B) : Prop :=
  t = [] ∨ ∃ p, F.Fits p ∧ t <+: F.encode p ∧ t ≠ F.encode p

theorem next_nil : F.next [] = none := by
  cases h : F.next []
  case none => rfl
  case some q => exact absurd (F.shrinks (p := q.1) (r := q.2) h) (by simp)

theorem Torn.scan (h : F.Torn t) : F.scan t = ([], t) := by
  rcases h with rfl | ⟨p, hf, ht, hn⟩
  · exact scan_of_none next_nil
  · exact scan_torn hf ht hn

theorem scan_log (hf : ∀ p ∈ ps, F.Fits p) (ht : F.Torn t) :
    F.scan (ps.flatMap F.encode ++ t) = (ps, t) := by
  rw [scan_encodes_append hf, ht.scan]
  simp

def whole (F : Framing B P) : Nat → List P → Nat
  | _, [] => 0
  | n, p :: ps => if (F.encode p).length ≤ n then F.whole (n - (F.encode p).length) ps + 1 else 0

theorem encode_ne_nil (hf : F.Fits p) : F.encode p ≠ [] := by
  intro he
  have hn := F.next_encode (r := []) hf
  rw [he, append_nil, next_nil] at hn
  exact absurd hn nofun

theorem scan_take (hf : ∀ p ∈ ps, F.Fits p) (n : Nat) :
    (F.scan ((ps.flatMap F.encode).take n)).1 = ps.take (F.whole n ps) := by
  induction ps generalizing n
  case nil => rw [flatMap_nil, take_nil, scan_of_none next_nil, take_nil]
  case cons p ps ih =>
    have hp := hf p mem_cons_self
    rw [flatMap_cons, whole]
    by_cases hn : (F.encode p).length ≤ n
    case pos =>
      rw [take_append, take_of_length_le hn, scan_encode_append hp, if_pos hn, take_succ_cons,
        ih fun q hq => hf q (mem_cons_of_mem _ hq)]
    have hlt : n < (F.encode p).length := Nat.lt_of_not_le hn
    rw [take_append_of_le_length hlt.le, if_neg hn, take_zero]
    refine congrArg Prod.fst (scan_torn hp ( take_prefix n _) fun he => ?_)
    have hl := congrArg length he
    rw [length_take] at hl
    omega

end Framing

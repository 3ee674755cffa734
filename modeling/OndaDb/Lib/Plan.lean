import Mathlib.Data.List.Basic

-- Plans: atomic steps to be taken one after the other, which may be cut between any two of them.
namespace Plan

variable {σ α : Type} (step : σ → α → σ)

def cut (plan : List α) (k : Option Nat) (s : σ) : σ :=
  ((k.map plan.take).getD plan).foldl step s

def Passes (P : σ → Prop) : List α → σ → Prop
  | [], s => P s
  | a :: as, s => P s ∧ Passes P as (step s a)

def Along (R : σ → α → Prop) : List α → σ → Prop
  | [], _ => True
  | a :: as, s => R s a ∧ Along R as (step s a)

variable {step} {P Q : σ → Prop} {R : σ → α → Prop} {as bs : List α} {s : σ}

theorem Passes.start (h : Passes step P as s) : P s := by
  cases as
  case nil => exact h
  case cons => exact h.1

theorem Passes.last (h : Passes step P as s) : P (as.foldl step s) := by
  induction as generalizing s
  case nil => exact h
  case cons a as ih => exact ih h.2

theorem Passes.append (h : Passes step P as s) (h' : Passes step P bs (as.foldl step s)) :
    Passes step P (as ++ bs) s := by
  induction as generalizing s
  case nil => exact h'
  case cons a as ih => exact ⟨h.1, ih h.2 h'⟩

theorem Passes.take (h : Passes step P as s) (k : Nat) : P ((as.take k).foldl step s) := by
  induction as generalizing s k
  case nil =>
    rw [List.take_nil]
    exact h
  case cons a as ih =>
    cases k
    case zero => exact h.1
    case succ k => exact ih h.2 k

theorem Passes.cut (h : Passes step P as s) (k : Option Nat) : P (cut step as k s) := by
  cases k
  case none => exact h.last
  case some k => exact h.take k

theorem Passes.mono (h : Passes step P as s) (hpq : ∀ s, P s → Q s) : Passes step Q as s := by
  induction as generalizing s
  case nil => exact hpq s h
  case cons a as ih => exact ⟨hpq s h.1, ih h.2⟩

theorem Along.append (h : Along step R as s) (h' : Along step R bs (as.foldl step s)) : Along step R (as ++ bs) s := by
  induction as generalizing s
  case nil => exact h'
  case cons a as ih => exact ⟨h.1, ih h.2 h'⟩

end Plan

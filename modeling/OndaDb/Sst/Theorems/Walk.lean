import Mathlib.Data.Finite.Prod
import OndaDb.Sst.Theorems.Index

-- When loading an index ends, whatever bytes the file holds.
namespace OndaDb.Sst

open Reader Decoder

variable {host : Host} {file : Bytes}

section abort

end abort

namespace Host

end Host

def Load.Ends (x : Host.Load α) : Prop :=
  ∃ y, x = ExceptT.mk (some y) ∧ y ≠ .error .abort

namespace Host

def visit (host : Host) (file : Bytes) : Nat → Bool → BlockHandle → Load Unit
  | 0,         _,      _ => ExceptT.mk none
  | depth + 1, isRoot, b => do
    let (_, node) ← ExceptT.mk (some (host.readNode file isRoot b))
    match node with
    | .leaf _ => pure ()
    | .internal cs => forM cs (host.visit file depth false)

theorem visit_leaf (h : host.readNode file isRoot b = .ok (minKey, .leaf es)) :
    host.visit file (d + 1) isRoot b = ExceptT.mk (some (.ok ())) := by
  rw [visit, h]
  rfl

theorem visit_internal (h : host.readNode file isRoot b = .ok (minKey, .internal cs)) :
    host.visit file (d + 1) isRoot b = forM cs (host.visit file d false) := by
  rw [visit, h]
  rfl

section forM

variable {f g : BlockHandle → Load Unit} {cs : List BlockHandle} {x : Except Stop Unit}

theorem forM_eq_some (h : forM cs f = ExceptT.mk (some x)) : x = .ok () ∧ (∀ c ∈ cs, f c = ExceptT.mk (some (.ok ()))) ∨
    ∃ before c after, cs = before ++ c :: after ∧ (∀ b ∈ before, f b = ExceptT.mk (some (.ok ()))) ∧
      f c = ExceptT.mk (some x) ∧ x ≠ .ok () := by
  induction cs
  case nil =>
    cases h
    exact .inl ⟨rfl, by simp⟩
  case cons c cs ih =>
    rw [List.forM_cons] at h
    rcases hc : f c with _ | (e | ⟨⟩)
    · rw [hc] at h
      cases h
    · rw [hc] at h
      cases h
      exact .inr ⟨[], c, cs, rfl, by simp, hc, by simp⟩
    · rw [hc] at h
      rcases ih h with ⟨hx, hall⟩ | ⟨before, c', after, rfl, hbefore, hc', hx⟩
      · exact .inl ⟨hx, List.forall_mem_cons.mpr ⟨hc, hall⟩⟩
      · exact .inr ⟨c :: before, c', after, rfl, List.forall_mem_cons.mpr ⟨hc, hbefore⟩, hc', hx⟩

theorem forM_suffix (hb : ∀ b ∈ before, ∀ y, f b = ExceptT.mk (some y) → y = .ok ())
    (h : forM (before ++ cs) f = ExceptT.mk (some x)) : forM cs f = ExceptT.mk (some x) := by
  induction before
  case nil => exact h
  case cons b before ih =>
    obtain ⟨hb, hrest⟩ := List.forall_mem_cons.mp hb
    rw [List.cons_append, List.forM_cons] at h
    rcases hf : f b with _ | (e | ⟨⟩)
    · rw [hf] at h
      cases h
    · cases hb _ hf
    · rw [hf] at h
      exact ih hrest h

end forM

inductive Sound (host : Host) (file : Bytes) : Bool → BlockHandle → Prop
  | leaf (h : host.readNode file isRoot b = .ok (minKey, .leaf es)) : Sound host file isRoot b
  | internal (h : host.readNode file isRoot b = .ok (minKey, .internal cs)) (hc : ∀ c ∈ cs, Sound host file false c) :
    Sound host file isRoot b

-- A node as the walk comes to it: the root is read in another way than the others.
abbrev Place := Bool × BlockHandle

-- From an internal node the walk goes on to a child if the children before it can be read.
def Visits (host : Host) (file : Bytes) (p q : Place) : Prop :=
  q.1 = false ∧ ∃ minKey before after, host.readNode file p.1 p.2 = .ok (minKey, .internal (before ++ q.2 :: after)) ∧
    ∀ b ∈ before, host.Sound file false b

theorem Sound.visit_eq (hs : host.Sound file isRoot b) (h : host.visit file d isRoot b = ExceptT.mk (some x)) :
    x = .ok () := by
  induction hs generalizing d x <;> cases d
  case leaf.zero | internal.zero => cases h
  case leaf.succ hread d =>
    rw [visit_leaf hread] at h
    cases h
    rfl
  case internal.succ cs _ hread _ ih d =>
    rw [visit_internal hread] at h
    rcases forM_eq_some h with ⟨hx, _⟩ | ⟨before, c, after, rfl, _, hc, hne⟩
    · exact hx
    · exact absurd (ih c (by simp) hc) hne

def Ends (host : Host) (file : Bytes) (p : Place) : Prop :=
  ∃ d, Load.Ends (host.visit file d p.1 p.2)

theorem Visits.ends (hv : host.Visits file p q) (h : Load.Ends (host.visit file d p.1 p.2)) :
    ∃ d' < d, Load.Ends (host.visit file d' q.1 q.2) := by
  obtain ⟨y, hy, hne⟩ := h
  obtain ⟨hq, minKey, before, after, hread, hbefore⟩ := hv
  cases d
  case zero => cases hy
  case succ d =>
    refine ⟨d, Nat.lt_succ_self d, ?_⟩
    rw [visit_internal hread] at hy
    rw [hq]
    -- The walk cannot stop at a child that can be read.
    have hq := forM_suffix (fun b hb y => (hbefore b hb).visit_eq) hy
    rw [List.forM_cons] at hq
    rcases hv : host.visit file d false q.2 with _ | (e | ⟨⟩)
    · rw [hv] at hq
      cases hq
    · rw [hv] at hq
      cases hq
      exact ⟨_, rfl, hne⟩
    · exact ⟨_, rfl, by simp⟩

instance : Finite BlockHandle :=
  Finite.of_injective (fun b => (b.offset.toFin, b.length.toFin)) fun a b h => by
    simp only [Prod.mk.injEq, UInt64.toFin_inj] at h
    cases a
    cases b
    simp_all

end Host

end OndaDb.Sst

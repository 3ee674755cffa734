import OndaDb.Excise.Basic
import OndaDb.Read.Theorems.Reference

namespace OndaDb.Excise

open List

variable {K V : Type} [LinearOrder K]

def Deletes (cs : List (Cover K)) (owners : List Nat) (m : Nat) (k : K) : Prop :=
  ∃ c ∈ cs, c.owner ∈ owners ∧ m < c.seq ∧ c.start ≤ k ∧ k < c.stop

theorem Deletes.mono (h : Deletes cs owners m (k : K)) (hs : owners ⊆ owners') :
    Deletes cs owners' m k := by
  obtain ⟨c, hc, ho, hd⟩ := h
  exact ⟨c, hc, hs ho, hd⟩

section drop

variable {tree : Tree K V} {oldest : Nat} {ids : List Nat}
  (hids : ids ⊆ (plan tree oldest).map (·.table.id))

variable (hv : ∀ t ∈ tree.tables, t.Valid) (hn : (tree.tables.map Table.id).Nodup)

end drop

def SameReads [Inhabited V] (tree tree' : Tree K V) (oldest : Nat) : Prop :=
  ∀ op r now, oldest ≤ r →
    (∀ k, tree'.data.read op k r now = tree.data.read op k r now) ∧
    ∀ bounds, tree'.data.scan op bounds r now = tree.data.scan op bounds r now

theorem SameReads.refl [Inhabited V] (tree : Tree K V) : SameReads tree tree oldest :=
  fun _ _ _ _ => ⟨fun _ => rfl, fun _ => rfl⟩

end OndaDb.Excise

import OndaDb.Incarnation.Basic

namespace OndaDb.Incarnation.State

open List

variable {I N D K V : Type} {s s' : State I N D K V} {cfId : N → Nat} {id inc : Nat}

theorem mem_modifyFamily :
    f' ∈ (s.modifyFamily inc g).families ↔ ∃ f ∈ s.families, (if f.inc = inc then g f else f) = f' :=
  mem_map

theorem families_modifyFamily (hg : ∀ f, (g f).id = f.id ∧ (g f).inc = f.inc) :
    ∀ f' ∈ (s.modifyFamily inc g).families, ∃ f ∈ s.families, f.id = f'.id ∧ f.inc = f'.inc := by
  intro f' hf'
  obtain ⟨f, hf, he⟩ := mem_modifyFamily.mp hf'
  refine ⟨f, hf, ?_⟩
  rw [← he]
  split
  case isTrue => exact ⟨(hg f).left.symm, (hg f).right.symm⟩
  case isFalse => exact ⟨rfl, rfl⟩

theorem family_mem (h : s.family inc = some f) : f ∈ s.families ∧ f.inc = inc := by
  refine ⟨mem_of_find?_eq_some h, ?_⟩
  simpa using find?_some h

theorem mem_append_data (hf : file ∈ (s.append frame).files) (hr : r ∈ file.data) :
    (∃ file' ∈ s.files, file'.gen = file.gen ∧ r ∈ file'.data) ∨ file.gen = s.gen ∧ r ∈ frame.dataItems := by
  obtain ⟨file', hf', he⟩ := mem_map.mp hf
  subst he
  split at hr
  case isFalse => exact .inl ⟨file', hf', by simp_all, hr⟩
  case isTrue hg =>
    simp only [File.data, flatMap_append, mem_append, flatMap_singleton] at hr
    cases hr
    case inl hr => exact .inl ⟨file', hf', by simp [hg], hr⟩
    case inr hr => exact .inr ⟨by simp [hg], hr⟩

theorem mem_append_prepared (hf : file ∈ (s.append frame).files) (hr : r ∈ file.prepared) :
    (∃ file' ∈ s.files, r ∈ file'.prepared) ∨ r ∈ frame.preparedItems := by
  obtain ⟨file', hf', he⟩ := mem_map.mp hf
  subst he
  split at hr
  case isFalse => exact .inl ⟨file', hf', hr⟩
  simp only [File.prepared, flatMap_append, mem_append, flatMap_singleton] at hr
  exact hr.imp (fun hr => ⟨file', hf', hr⟩) id

theorem mem_sharedItems_addActive (h : r ∈ (s.addActive items).sharedItems) :
    r ∈ s.sharedItems ∨ r ∈ items := by
  simp only [sharedItems, mems, addActive, flatMap_append, flatMap_singleton, mem_append] at h ⊢
  tauto

-- The records that are in the shared memtable or can come back into it.
inductive Known (s : State I N D K V) (r : Record K V) : Prop
  | mem (held : r ∈ s.sharedItems)
  | data {file : File I K V} (mem : file ∈ s.files) (floor : s.floor ≤ file.gen) (held : r ∈ file.data)
  | prepared {file : File I K V} (mem : file ∈ s.files) (held : r ∈ file.prepared)
  | pending {p : PreparedEntry I K V} (mem : p ∈ s.prepared) (held : r ∈ p.items)

theorem Known.of_append (h : (s.append frame).Known r) :
    s.Known r ∨ r ∈ frame.dataItems ∨ r ∈ frame.preparedItems := by
  cases h
  case mem h => exact .inl (.mem h)
  case pending hp h => exact .inl (.pending hp h)
  case prepared hf h =>
    cases mem_append_prepared hf h
    case inl h => exact .inl (.prepared h.choose_spec.left h.choose_spec.right)
    case inr h => exact .inr (.inr h)
  case data hf hle h =>
    cases mem_append_data hf h
    case inr h => exact .inr (.inl h.right)
    case inl h =>
      obtain ⟨file', hf', hg, h⟩ := h
      exact .inl (.data hf' (hg ▸ hle) h)

theorem Known.of_addActive (h : (s.addActive items).Known r) :
    s.Known r ∨ r ∈ items := by
  cases h
  case mem h => exact (mem_sharedItems_addActive h).imp .mem id
  case data hf hle h => exact .inl (.data hf hle h)
  case prepared hf h => exact .inl (.prepared hf h)
  case pending hp h => exact .inl (.pending hp h)

variable [DecidableEq N]

inductive Carries (s : State I N D K V) (id inc : Nat) : Prop
  | family {f : Family N K V} (mem : f ∈ s.families) (hid : f.id = id) (hinc : f.inc = inc)
  | entry {n : N} {e : Entry K V} (named : s.catalog.lookup n = some e) (hid : e.id = id) (hinc : e.inc = inc)

structure Blank (s : State I N D K V) (id : Nat) : Prop where
  carries : ∀ {inc}, ¬ s.Carries id inc
  known : ∀ {r}, s.Known r → r.cf ≠ id

structure Routed (s : State I N D K V) : Prop where
  carries : ∀ {id i j}, s.Carries id i → s.Carries id j → i = j
  known : ∀ {r i}, s.Known r → s.Carries r.cf i → i = r.inc
  -- The id that a clear has chosen and not yet written to the catalog.
  fresh : ∀ {o id}, s.op = some o → o.phase = .begun → o.fresh = some id → s.Blank id

theorem Blank.mono (h : s.Blank id) (hc : ∀ {id i}, s'.Carries id i → s.Carries id i)
    (hk : ∀ {r}, s'.Known r → s.Known r) : s'.Blank id where
  carries hc' := h.carries (hc hc')
  known hk'   := h.known (hk hk')

theorem Routed.mono (h : s.Routed) (hc : ∀ {id i}, s'.Carries id i → s.Carries id i)
    (hk : ∀ {r}, s'.Known r → s.Known r)
    (ho : ∀ {o}, s'.op = some o → o.phase = .begun → o.fresh ≠ none → s.op = some o) : s'.Routed where
  carries hi hj      := h.carries (hc hi) (hc hj)
  known hr hi        := h.known (hk hr) (hc hi)
  fresh hop hp hid   := (h.fresh (ho hop hp (hid ▸ Option.some_ne_none _)) hp hid).mono hc hk

theorem Routed.add (h : s.Routed) (hc : ∀ {id i}, s'.Carries id i → s.Carries id i)
    (hk : ∀ {r}, s'.Known r → s.Known r ∨ s.Carries r.cf r.inc) (ho : s'.op = s.op) : s'.Routed where
  carries hi hj := h.carries (hc hi) (hc hj)
  known hr hi   := by
    cases hk hr
    case inl hr => exact h.known hr (hc hi)
    case inr hr => exact h.carries (hc hi) hr
  fresh hop hp hid := by
    have hb := h.fresh (ho ▸ hop) hp hid
    refine ⟨fun hi => hb.carries (hc hi), fun hr he => ?_⟩
    cases hk hr
    case inl hr => exact hb.known hr he
    case inr hr => exact hb.carries (he ▸ hr)

theorem Routed.give {fresh i : Nat} (h : s.Routed) (hb : s.Blank fresh)
    (hc : ∀ {id j}, s'.Carries id j → s.Carries id j ∨ id = fresh ∧ j = i)
    (hk : ∀ {r}, s'.Known r → s.Known r) (ho : ∀ {o}, s'.op = some o → o.phase ≠ .begun) : s'.Routed where
  carries hi hj := by
    cases hc hi <;> cases hc hj
    case inl.inl hi hj => exact h.carries hi hj
    case inl.inr hi hj => exact absurd (hj.left ▸ hi) hb.carries
    case inr.inl hi hj => exact absurd (hi.left ▸ hj) hb.carries
    case inr.inr hi hj => rw [hi.right, hj.right]
  known hr hi := by
    cases hc hi
    case inl hi => exact h.known (hk hr) hi
    case inr hi => exact absurd hi.left (hb.known (hk hr))
  fresh hop hp := absurd hp (ho hop)

theorem Carries.of_families (h : s'.Carries id i)
    (hf : ∀ f' ∈ s'.families, ∃ f ∈ s.families, f.id = f'.id ∧ f.inc = f'.inc)
    (hcat : ∀ n e', s'.catalog.lookup n = some e' → ∃ e, s.catalog.lookup n = some e ∧ e.id = e'.id ∧ e.inc = e'.inc) :
    s.Carries id i := by
  cases h
  case family f' hmem hid hinc =>
    obtain ⟨f, hm, he, hi⟩ := hf f' hmem
    exact .family hm (he.trans hid) (hi.trans hinc)
  case entry n e' hn hid hinc =>
    obtain ⟨e, hn, he, hi⟩ := hcat n e' hn
    exact .entry hn (he.trans hid) (hi.trans hinc)

theorem family_carries (h : s.family inc = some f) : s.Carries f.id inc :=
  .family (family_mem h).left rfl (family_mem h).right

-- The id chosen for a new incarnation is blank, where the log has no record that no memtable holds.
def Covered (s : State I N D K V) : Prop :=
  ∀ file ∈ s.files, s.floor ≤ file.gen → ∀ r ∈ file.data,
    r ∈ s.sharedItems ∨ file.gen ∈ s.gens.flushed ∨ ∃ u ∈ s.unlinking, file.gen ∈ u.1

theorem not_taken (h : ¬ s.taken avoid id) :
    id ∉ avoid ∧ (∀ f ∈ s.families, s.registered f → f.id ≠ id) ∧ ∀ r ∈ s.sharedItems, r.cf ≠ id := by
  simp only [taken, holdsCf, any_eq_true, decide_eq_true_eq, Bool.and_eq_true] at h
  push Not at h
  exact ⟨h.left, h.right.left, h.right.right⟩

theorem Unused.blank (h : s.Unused id) (hmem : ∀ r ∈ s.sharedItems, r.cf ≠ id)
    (hdata : ∀ file ∈ s.files, s.floor ≤ file.gen → ∀ r ∈ file.data, r.cf ≠ id)
    (hcat : ∀ n e, s.catalog.lookup n = some e → ∃ f ∈ s.families, f.id = e.id) : s.Blank id where
  carries hc := by
    cases hc
    case family hf he _ => exact h.left _ hf he
    case entry hn he _ =>
      obtain ⟨f, hf, hid⟩ := hcat _ _ hn
      exact h.left f hf (hid.trans he)
  known hk := by
    cases hk
    case mem hr => exact hmem _ hr
    case data hf hle hr => exact hdata _ hf hle _ hr
    case prepared hf hr => exact h.right.right _ hf _ hr
    case pending hp hr =>
      intro he
      apply h.right.left
      simp only [touchesCf, any_eq_true, decide_eq_true_eq]
      exact ⟨_, hp, _, hr, he⟩

theorem FreshId.blank (h : s.FreshId cfId name avoid draw) (hm : s.Minted true cfId name avoid draw)
    (hcov : s.Covered) (hcat : ∀ n e, s.catalog.lookup n = some e → ∃ f ∈ s.families, f.id = e.id) :
    s.Blank (s.chooseUnifiedId true cfId name avoid draw) := by
  unfold FreshId at h
  simp only [chooseUnifiedId, Bool.not_true, Bool.false_or]
  split at h
  case isTrue hfree =>
    rw [if_pos hfree]
    have hfree' := hfree
    simp only [free, decide_eq_true_eq] at hfree'
    have hmem := (not_taken hfree'.right).right.right
    refine h.left.blank hmem (fun file hf hle r hr => ?_) hcat
    cases hcov file hf hle r hr
    case inl hr => exact hmem r hr
    case inr hr =>
      cases hr
      case inl hr => exact absurd hr (hfree'.left ▸ not_mem_nil)
      case inr hr =>
        obtain ⟨u, hu, hg⟩ := hr
        exact absurd hg (h.right file hf hle u hu)
  case isFalse hfree =>
    rw [if_neg hfree]
    exact h.left.blank (not_taken (hm rfl hfree).right).right.right (fun file hf _ => h.right file hf) hcat

end OndaDb.Incarnation.State

import OndaDb.Prepared.Store

namespace OndaDb.Prepared

open List

variable {I : Type}

structure Tombstone.Follows (l : List Nat) (t t' : Tombstone I) : Prop where
  id : t'.id = t.id
  prepare : t'.prepareGen = t.prepareGen
  decision : t'.decisionGen = t.decisionGen
  prepared : t'.prepareDeleted → t.prepareDeleted ∨ t.prepareGen ∈ l
  decided : t'.decisionDeleted → t.decisionDeleted ∨ t.decisionGen ∈ l

namespace Tombstone

variable {l : List Nat} {g : Nat} {t t' t'' : Tombstone I}

theorem Follows.refl : Follows l t t where
  id := rfl
  prepare := rfl
  decision := rfl
  prepared := .inl
  decided := .inl

theorem prepareDeleted_unlinked :
    (t.unlinked g).prepareDeleted ∨ t.prepareGen ∈ l ↔ t.prepareDeleted ∨ t.prepareGen ∈ g :: l := by
  simp [unlinked, or_assoc]

theorem decisionDeleted_unlinked :
    (t.unlinked g).decisionDeleted ∨ t.decisionGen ∈ l ↔ t.decisionDeleted ∨ t.decisionGen ∈ g :: l := by
  simp [unlinked, or_assoc]

theorem Follows.unlinked (h : Follows l (t.unlinked g) t') : Follows (g :: l) t t' where
  __ := h
  prepared := fun hd => prepareDeleted_unlinked.mp (h.prepared hd)
  decided := fun hd => decisionDeleted_unlinked.mp (h.decided hd)

def Gone (l : List Nat) (t : Tombstone I) : Prop :=
  (t.prepareDeleted ∨ t.prepareGen ∈ l) ∧ (t.decisionDeleted ∨ t.decisionGen ∈ l)

theorem Gone.of_follows (h : Follows l t t') (hd : t'.retired) : t.Gone l := by
  rw [retired, Bool.and_eq_true] at hd
  exact ⟨h.prepared hd.1, h.decided hd.2⟩

theorem Gone.unlinked (h : (t.unlinked g).Gone l) : t.Gone (g :: l) :=
  ⟨prepareDeleted_unlinked.mp h.1, decisionDeleted_unlinked.mp h.2⟩

theorem Gone.mono (hs : l ⊆ l') (h : t.Gone l) : t.Gone l' :=
  ⟨h.1.imp_right fun h => hs h, h.2.imp_right fun h => hs h⟩

end Tombstone

-- Among the generations `l` to be unlinked in order, `G` does not come before `P`.
def Before (P G : Nat) (l : List Nat) : Prop :=
  ∀ l₁ l₂, l = l₁ ++ G :: l₂ → P = G ∨ P ∈ l₁

namespace Before

variable {P G g : Nat} {l : List Nat}

theorem cons_self (h : g ≠ G) : Before g G (g :: l) := by
  rintro (_ | ⟨x, l₁⟩) l₂ heq
  · exact absurd (List.cons.inj heq).1 h
  · exact .inr ((List.cons.inj heq).1 ▸ mem_cons_self)

theorem cons (hg : g ≠ G) (h : Before P G l) : Before P G (g :: l) := by
  rintro (_ | ⟨x, l₁⟩) l₂ heq
  · exact absurd (List.cons.inj heq).1 hg
  · exact (h l₁ l₂ (List.cons.inj heq).2).imp_right (mem_cons_of_mem _)

theorem tail (hg : g ≠ P) (h : Before P G (g :: l)) : Before P G l := by
  rintro l₁ l₂ rfl
  rcases h (g :: l₁) l₂ rfl with h | h
  · exact .inl h
  · exact .inr ((mem_cons.mp h).resolve_left hg.symm)

theorem head_ne (hg : g ≠ P) (h : Before P G (g :: l)) : g ≠ G := by
  rintro rfl
  rcases h [] l rfl with h | h
  · exact hg h.symm
  · cases h

theorem mem (h : Before P G l) (hG : G ∈ l) : P ∈ l := by
  obtain ⟨l₁, l₂, rfl⟩ := append_of_mem hG
  rcases h l₁ l₂ rfl with rfl | h
  · exact hG
  · exact mem_append_left _ h

end Before

namespace WalGenState

variable {g g' : WalGenState I} {gen n : Nat} {l : List Nat} {ids : List I}

theorem nextRetirable_mem (h : g.nextRetirable = some gen) : gen ∈ g.flushed :=
  mem_of_find?_eq_some h

theorem nextRetirable_retirable (h : g.nextRetirable = some gen) : g.retirable gen :=
  find?_some h

theorem mem_markFlushed : x ∈ (g.markFlushed gen).flushed ↔ x = gen ∨ x ∈ g.flushed := by
  rw [markFlushed]
  split
  case isTrue h => exact ⟨.inr, fun hg => hg.elim (fun e => e ▸ h) id⟩
  case isFalse h => simp

theorem mem_foldl_markFlushed (l : List Nat) :
    x ∈ (l.foldl markFlushed g).flushed ↔ x ∈ l ∨ x ∈ g.flushed := by
  induction l generalizing g with
  | nil => simp
  | cons gen l ih =>
    rw [foldl_cons, ih, mem_markFlushed, mem_cons]
    tauto

theorem live_foldl_markFlushed (l : List Nat) (g : WalGenState I) :
    (l.foldl markFlushed g).live = g.live := by
  induction l generalizing g with
  | nil => rfl
  | cons gen l ih =>
    rw [foldl_cons, ih, markFlushed]
    split <;> rfl

theorem tombs_foldl_markFlushed (l : List Nat) (g : WalGenState I) :
    (l.foldl markFlushed g).tombs = g.tombs := by
  induction l generalizing g with
  | nil => rfl
  | cons gen l ih =>
    rw [foldl_cons, ih, markFlushed]
    split <;> rfl

-- What a sweep does to the bookkeeping `g`: it unlinks `l`, retires `ids` and leaves `g'`.
structure Swept (g : WalGenState I) (l : List Nat) (ids : List I) (g' : WalGenState I) : Prop where
  live : g'.live = g.live
  flushed : ∀ x, x ∈ g'.flushed ↔ x ∈ g.flushed ∧ x ∉ l
  sub : l ⊆ g.flushed
  pinned : ∀ x ∈ l, x ∉ g.live
  perm : (ids ++ g'.tombs.map (·.id)).Perm (g.tombs.map (·.id))
  tombs : ∀ t ∈ g.tombs, (∃ t' ∈ g'.tombs, t.Follows l t') ∨ t.id ∈ ids ∧ t.Gone l
  before : ∀ t ∈ g.tombs, t.prepareDeleted ∨ Before t.prepareGen t.decisionGen l
  after : ∀ t ∈ g.tombs, t.prepareGen ∈ l →
    t.prepareDeleted ∨ t.decisionDeleted ∨ t.decisionGen ∈ g.flushed

theorem Swept.refl : Swept g [] [] g where
  live := rfl
  flushed := by simp
  sub := nil_subset _
  pinned := nofun
  perm := .refl _
  tombs := fun t ht => .inl ⟨t, ht, .refl⟩
  before := fun t _ => .inr fun l₁ l₂ h => by simp at h
  after := nofun

theorem retire_perm :
    ((g.retire gen).2 ++ (g.retire gen).1.tombs.map (·.id)).Perm (g.tombs.map (·.id)) := by
  simp only [retire, ← map_append]
  refine ((filter_append_perm Tombstone.retired _).map _).trans ?_
  rw [map_map]
  exact .refl _

theorem mem_retire (gen : Nat) (ht : t ∈ g.tombs) :
    t.unlinked gen ∈ (g.retire gen).1.tombs ∨ t.id ∈ (g.retire gen).2 ∧ t.Gone [gen] := by
  have hmem : t.unlinked gen ∈ g.tombs.map (Tombstone.unlinked gen) := mem_map_of_mem ht
  cases hr : (t.unlinked gen).retired
  case false => exact .inl (mem_filter.mpr ⟨hmem, by rw [hr]; rfl⟩)
  case true =>
    refine .inr ⟨mem_map.mpr ⟨_, mem_filter.mpr ⟨hmem, hr⟩, rfl⟩, ?_⟩
    exact .of_follows (.unlinked .refl) hr

theorem retirable_iff : g.retirable gen ↔ gen ∉ g.live ∧
    (∀ t ∈ g.tombs, t.prepareGen = gen → t.decisionDeleted ∨ t.decisionGen ∈ g.flushed) ∧
    ∀ t ∈ g.tombs, t.decisionGen = gen → t.prepareGen = gen ∨ t.prepareDeleted := by
  simp only [retirable, decide_eq_true_eq]

theorem Swept.retire (hg : gen ∈ g.flushed) (hr : g.retirable gen) (h : Swept (g.retire gen).1 l ids g') :
    Swept g (gen :: l) ((g.retire gen).2 ++ ids) g' where
  __ := h
  flushed := fun x => by
    rw [h.flushed, mem_cons, not_or]
    simp only [WalGenState.retire, mem_filter, decide_eq_true_eq]
    exact and_assoc
  sub := cons_subset.mpr ⟨hg, fun x hx => (mem_filter.mp (h.sub hx)).1⟩
  pinned := fun x hx => by
    rcases mem_cons.mp hx with rfl | hx
    · exact (retirable_iff.mp hr).1
    · exact h.pinned x hx
  perm := by
    rw [append_assoc]
    exact (List.Perm.append_left _ h.perm).trans retire_perm
  tombs := fun t ht => by
    rcases mem_retire gen ht with ht | ⟨hid, hgone⟩
    · rcases h.tombs _ ht with ⟨t', ht', hf⟩ | ⟨hid, hgone⟩
      · exact .inl ⟨t', ht', hf.unlinked⟩
      · exact .inr ⟨mem_append_right _ hid, hgone.unlinked⟩
    · exact .inr ⟨mem_append_left _ hid, hgone.mono (cons_subset_cons _ (nil_subset _))⟩
  before := fun t ht => by
    by_cases hG : gen = t.decisionGen
    · rcases (retirable_iff.mp hr).2.2 t ht hG.symm with hP | hd
      · exact .inr fun _ _ _ => .inl (hP.trans hG)
      · exact .inl hd
    by_cases hP : gen = t.prepareGen
    · exact .inr (hP ▸ .cons_self hG)
    rcases mem_retire gen ht with ht | ⟨-, hgone⟩
    · rcases h.before _ ht with hd | hb
      · exact .inl (by simpa [Tombstone.unlinked, Ne.symm hP] using hd)
      · exact .inr (.cons hG hb)
    · exact .inl (hgone.1.resolve_right fun h => hP (mem_singleton.mp h).symm)
  after := fun t ht hmem => by
    by_cases hP : gen = t.prepareGen
    · exact .inr ((retirable_iff.mp hr).2.1 t ht hP.symm)
    have hmem : t.prepareGen ∈ l := (mem_cons.mp hmem).resolve_left (Ne.symm hP)
    rcases mem_retire gen ht with ht | ⟨-, hgone⟩
    · rcases h.after _ ht hmem with hd | hd | hd
      · exact .inl (by simpa [Tombstone.unlinked, Ne.symm hP] using hd)
      · simp only [Tombstone.unlinked, Bool.or_eq_true, decide_eq_true_eq] at hd
        rcases hd with hd | rfl
        · exact .inr (.inl hd)
        · exact .inr (.inr hg)
      · exact .inr (.inr (mem_filter.mp hd).1)
    · exact .inl (hgone.1.resolve_right fun h => hP (mem_singleton.mp h).symm)

theorem sweepLoop_swept (n : Nat) (g : WalGenState I) :
    Swept g (sweepLoop n g).1 (sweepLoop n g).2.1 (sweepLoop n g).2.2 := by
  induction n generalizing g with
  | zero => exact .refl
  | succ n ih =>
    rw [sweepLoop]
    split
    case h_1 => exact .refl
    case h_2 gen h => exact (ih _).retire (nextRetirable_mem h) (nextRetirable_retirable h)

theorem sweep_swept (g : WalGenState I) : Swept g g.sweep.1 g.sweep.2.1 g.sweep.2.2 :=
  sweepLoop_swept _ _

end WalGenState

end OndaDb.Prepared

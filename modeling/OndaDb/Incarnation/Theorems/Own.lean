import OndaDb.Incarnation.Theorems.Shared

-- The families' own memtables, tables and logs: a directory holds the records of one incarnation.
namespace OndaDb.Incarnation

open List

def Family.stored (f : Family N K V) : List (Record K V) :=
  f.mem.items ++ f.imms.flatMap Mem.items ++ f.tables

namespace State

variable {I N D K V : Type} {s s' : State I N D K V} {cfDir : N → D}

def Settled (s : State I N D K V) (n : N) : Prop :=
  ∀ o, s.op = some o → o.name = n → o.phase = .begun

theorem settled_of_none (h : s.op = none) (n : N) : s.Settled n := by
  simp [Settled, h]

structure Kept (f f' : Family N K V) : Prop where
  inc : f'.inc = f.inc
  name : f'.name = f.name
  id : f'.id = f.id
  retiring : f'.retiring = f.retiring
  stored : ∀ r ∈ f'.stored, r.inc = f.inc

theorem Kept.refl {f : Family N K V} (h : ∀ r ∈ f.stored, r.inc = f.inc) : Kept f f :=
  ⟨rfl, rfl, rfl, rfl, h⟩

variable [DecidableEq N]

def Housed (s : State I N D K V) (n : N) : Prop :=
  (∃ e, s.catalog.lookup n = some e) ∨ ∃ o, s.op = some o ∧ o.name = n

def Current (s : State I N D K V) (f : Family N K V) : Prop :=
  ∃ e, s.catalog.lookup f.name = some e ∧ e.inc = f.inc

structure Owned (cfDir : N → D) (s : State I N D K V) : Prop where
  stored : ∀ {f}, f ∈ s.families → ∀ r ∈ f.stored, r.inc = f.inc
  tables : ∀ {n e}, s.catalog.lookup n = some e → ∀ r ∈ e.tables, r.inc = e.inc
  logs : ∀ {n e}, s.catalog.lookup n = some e → s.Settled n →
    ∀ l ∈ s.dirs (cfDir n), ∀ r ∈ l.items, r.inc = e.inc
  -- Only a current handle has a log, and one that a drop or clear is about to close.
  logged : ∀ {f}, f ∈ s.families → f.wal ≠ none →
    s.Current f ∨ ∃ o, s.op = some o ∧ o.name = f.name ∧ o.old = f.inc ∧ o.phase = .edited
  live : ∀ {f}, f ∈ s.families → f.retiring = false → s.Current f
  named : ∀ {n e f}, s.catalog.lookup n = some e → f ∈ s.families → f.inc = e.inc → f.name = n
  present : ∀ {n e}, s.catalog.lookup n = some e →
    (∃ f ∈ s.families, f.inc = e.inc ∧ f.id = e.id) ∨ ¬ s.Settled n
  begun : ∀ {o}, s.op = some o → o.phase = .begun → ∃ e, s.catalog.lookup o.name = some e ∧ e.inc = o.old
  retired : ∀ {o f}, s.op = some o → f ∈ s.families → f.inc = o.old → f.retiring = true
  edited : ∀ {o e}, s.op = some o → o.phase ≠ .begun → s.catalog.lookup o.name = some e → o.fresh = some e.id
  distinct : ∀ {n n' e e'}, s.catalog.lookup n = some e → s.catalog.lookup n' = some e' → e.inc = e'.inc → n = n'
  apart : ∀ {n n'}, s.Housed n → s.Housed n' → cfDir n = cfDir n' → n = n'
  bound : ∀ {n e}, s.catalog.lookup n = some e → e.inc < s.nextInc
  bounds : ∀ {f}, f ∈ s.families → f.inc < s.nextInc

namespace Owned

theorem start : (start : State I N D K V).Owned cfDir := by
  constructor <;> simp [State.start, Housed]

-- A step that updates families and tables, and writes to a log only records of the incarnation the
-- directory belongs to.
theorem update (h : s.Owned cfDir) {t : N → Entry K V → Entry K V} (hf : s'.families = s.families.map g)
    (hg : ∀ f ∈ s.families, Kept f (g f)) (hw : ∀ f ∈ s.families, (g f).wal ≠ none → f.wal ≠ none ∨ s.Current f)
    (hc : ∀ n, s'.catalog.lookup n = (s.catalog.lookup n).map (t n))
    (he : ∀ {n e}, s.catalog.lookup n = some e → (t n e).inc = e.inc ∧ (t n e).id = e.id ∧ ∀ r ∈ (t n e).tables, r.inc = e.inc)
    (ho : s'.op = s.op) (hn : s'.nextInc = s.nextInc)
    (hd : ∀ {n e}, s.catalog.lookup n = some e → s.Settled n → ∀ l ∈ s'.dirs (cfDir n), ∀ r ∈ l.items, r.inc = e.inc) :
    s'.Owned cfDir := by
  have hfam {f'} (hf' : f' ∈ s'.families) : ∃ f ∈ s.families, g f = f' := mem_map.mp (hf ▸ hf')
  have hcat {n e'} (hl : s'.catalog.lookup n = some e') :
      ∃ e, s.catalog.lookup n = some e ∧ t n e = e' := Option.map_eq_some_iff.mp (hc n ▸ hl)
  have hcat' {n e} (hl : s.catalog.lookup n = some e) : s'.catalog.lookup n = some (t n e) := by
    rw [hc, hl, Option.map_some]
  have hset {n} : s'.Settled n ↔ s.Settled n := by rw [Settled, Settled, ho]
  have hhouse {n} (hh : s'.Housed n) : s.Housed n := by
    refine hh.imp (fun hh => ?_) (fun hh => ho ▸ hh)
    obtain ⟨e, hl, _⟩ := hcat hh.choose_spec
    exact ⟨e, hl⟩
  have hcur {f} (hm : f ∈ s.families) (hl : s.Current f) : s'.Current (g f) := by
    obtain ⟨e, hl, hi⟩ := hl
    refine ⟨t f.name e, ?_, ?_⟩
    · rw [(hg f hm).name]; exact hcat' hl
    · rw [(he hl).left, (hg f hm).inc]; exact hi
  constructor
  case stored =>
    intro f' hf' r hr
    obtain ⟨f, hm, hgf⟩ := hfam hf'
    subst hgf
    rw [(hg f hm).inc]
    exact (hg f hm).stored r hr
  case tables =>
    intro n e' hl' r hr
    obtain ⟨e, hl, hge⟩ := hcat hl'
    subst hge
    rw [(he hl).left]
    exact (he hl).right.right r hr
  case logs =>
    intro n e' hl' hs l hmem r hr
    obtain ⟨e, hl, hge⟩ := hcat hl'
    subst hge
    rw [(he hl).left]
    exact hd hl (hset.mp hs) l hmem r hr
  case logged =>
    intro f' hf' hwal
    obtain ⟨f, hm, hgf⟩ := hfam hf'
    subst hgf
    cases hw f hm hwal
    case inr hl => exact .inl (hcur hm hl)
    case inl hwal =>
      cases h.logged hm hwal
      case inl hl => exact .inl (hcur hm hl)
      case inr hl =>
        obtain ⟨o, hop, hname, hold, hp⟩ := hl
        exact .inr ⟨o, ho ▸ hop, hname.trans (hg f hm).name.symm, hold.trans (hg f hm).inc.symm, hp⟩
  case live =>
    intro f' hf' hr
    obtain ⟨f, hm, hgf⟩ := hfam hf'
    subst hgf
    exact hcur hm (h.live hm ((hg f hm).retiring ▸ hr))
  case named =>
    intro n e' f' hl' hf' hi
    obtain ⟨f, hm, hgf⟩ := hfam hf'
    obtain ⟨e, hl, hge⟩ := hcat hl'
    subst hgf hge
    rw [(hg f hm).name]
    rw [(hg f hm).inc, (he hl).left] at hi
    exact h.named hl hm hi
  case present =>
    intro n e' hl'
    obtain ⟨e, hl, hge⟩ := hcat hl'
    subst hge
    refine (h.present hl).imp (fun hp => ?_) (fun hp hs => hp (hset.mp hs))
    obtain ⟨f, hm, hi, hid⟩ := hp
    refine ⟨g f, hf ▸ mem_map_of_mem hm, ?_, ?_⟩
    · rw [(hg f hm).inc, (he hl).left]; exact hi
    · rw [(hg f hm).id, (he hl).right.left]; exact hid
  case begun =>
    intro o hop hp
    obtain ⟨e, hl, hi⟩ := h.begun (ho ▸ hop) hp
    exact ⟨t o.name e, hcat' hl, (he hl).left.trans hi⟩
  case retired =>
    intro o f' hop hf' hi
    obtain ⟨f, hm, hgf⟩ := hfam hf'
    subst hgf
    rw [(hg f hm).retiring]
    exact h.retired (ho ▸ hop) hm ((hg f hm).inc ▸ hi)
  case edited =>
    intro o e' hop hp hl'
    obtain ⟨e, hl, hge⟩ := hcat hl'
    subst hge
    rw [(he hl).right.left]
    exact h.edited (ho ▸ hop) hp hl
  case distinct =>
    intro n n' e₁' e₂' hl₁' hl₂' hi
    obtain ⟨e₁, hl₁, hge₁⟩ := hcat hl₁'
    obtain ⟨e₂, hl₂, hge₂⟩ := hcat hl₂'
    subst hge₁ hge₂
    rw [(he hl₁).left, (he hl₂).left] at hi
    exact h.distinct hl₁ hl₂ hi
  case apart =>
    intro n n' hh hh'
    exact h.apart (hhouse hh) (hhouse hh')
  case bound =>
    intro n e' hl'
    obtain ⟨e, hl, hge⟩ := hcat hl'
    subst hge
    rw [(he hl).left, hn]
    exact h.bound hl
  case bounds =>
    intro f' hf'
    obtain ⟨f, hm, hgf⟩ := hfam hf'
    subst hgf
    rw [(hg f hm).inc, hn]
    exact h.bounds hm

theorem same (h : s.Owned cfDir) (hf : s'.families = s.families) (hc : s'.catalog = s.catalog)
    (hd : s'.dirs = s.dirs) (ho : s'.op = s.op) (hn : s'.nextInc = s.nextInc) : s'.Owned cfDir := by
  refine h.update (hf.trans (map_id _).symm) (fun f hm => .refl (h.stored hm))
    (fun _ _ => .inl) (fun n => ?_) (fun hl => ⟨rfl, rfl, h.tables hl⟩) ho hn ?_
  · rw [hc]; exact Option.map_id'.symm
  · intro n e hl hs
    rw [hd]
    exact h.logs hl hs

theorem current_of_inc (h : s.Owned cfDir) (hm : f ∈ s.families) (hr : f.retiring = false)
    (hm' : f' ∈ s.families) (hi : f'.inc = f.inc) : s.Current f' := by
  obtain ⟨e, hl, he⟩ := h.live hm hr
  refine ⟨e, ?_, he.trans hi.symm⟩
  rw [h.named hl hm' (hi.trans he.symm)]
  exact hl

theorem logged_inc (h : s.Owned cfDir) (hm : f ∈ s.families) (hw : f.wal ≠ none)
    (hl : s.catalog.lookup n = some e) (hs : s.Settled n) (hd : cfDir n = cfDir f.name) : e.inc = f.inc := by
  cases h.logged hm hw
  case inl hc =>
    obtain ⟨e', hl', hi⟩ := hc
    have hn : n = f.name := h.apart (.inl ⟨e, hl⟩) (.inl ⟨e', hl'⟩) hd
    rw [← hn, hl, Option.some_inj] at hl'
    exact hl' ▸ hi
  case inr ho =>
    obtain ⟨o, hop, hname, _, hp⟩ := ho
    have hn : n = f.name := h.apart (.inl ⟨e, hl⟩) (.inr ⟨o, hop, hname⟩) hd
    rw [hs o hop (hname.trans hn.symm)] at hp
    cases hp

theorem decide [DecidableEq I] (h : s.Owned cfDir) {id : I} {commit : Bool} : (s.decide id commit).Owned cfDir := by
  rw [State.decide]
  split
  case h_2 => exact h
  case h_1 => cases commit <;> exact h.same rfl rfl rfl rfl rfl

theorem unlink [DecidableEq I] (h : s.Owned cfDir) : (s.unlink i).Owned cfDir := by
  rw [State.unlink]
  split
  case h_1 | h_2 => exact h.same rfl rfl rfl rfl rfl
  case h_3 => exact h

variable [DecidableEq D]

omit [DecidableEq N] in
theorem logs_setDir {d d' : D} {P : Record K V → Prop} (hg : d' = d → ∀ l ∈ g (s.dirs d), ∀ r ∈ l.items, P r)
    (h : ∀ l ∈ s.dirs d', ∀ r ∈ l.items, P r) :
    ∀ l ∈ (s.setDir d g).dirs d', ∀ r ∈ l.items, P r := by
  intro l hl
  simp only [setDir, Function.update_apply] at hl
  split at hl
  case isTrue he => exact hg he l hl
  case isFalse => exact h l hl

theorem logs_openLog {gen : Nat} {logs : List (Log K V)} {P : Record K V → Prop}
    (h : ∀ l ∈ logs, ∀ r ∈ l.items, P r) : ∀ l ∈ openLog gen logs, ∀ r ∈ l.items, P r := by
  intro l hl
  rw [openLog] at hl
  split at hl
  case isTrue => exact h l hl
  cases mem_append.mp hl
  case inl hl => exact h l hl
  case inr hl => simp [mem_singleton.mp hl]

theorem logs_appendLog {gen : Nat} {logs : List (Log K V)} {P : Record K V → Prop}
    (h : ∀ l ∈ logs, ∀ r ∈ l.items, P r) (hi : ∀ r ∈ items, P r) :
    ∀ l ∈ appendLog gen items logs, ∀ r ∈ l.items, P r := by
  intro l hl r hr
  obtain ⟨l', hl', he⟩ := mem_map.mp hl
  subst he
  split at hr
  case isFalse => exact h l' hl' r hr
  cases mem_append.mp hr
  case inl hr => exact h l' hl' r hr
  case inr hr => exact hi r hr

theorem logs_filter {p : Log K V → Bool} {logs : List (Log K V)} {P : Record K V → Prop}
    (h : ∀ l ∈ logs, ∀ r ∈ l.items, P r) : ∀ l ∈ logs.filter p, ∀ r ∈ l.items, P r :=
  fun l hl => h l (mem_of_mem_filter hl)

theorem modify (h : s.Owned cfDir) {inc : Nat} {d : D} {g : Family N K V → Family N K V}
    (hg : ∀ f ∈ s.families, f.inc = inc → Kept f (g f))
    (hw : ∀ f ∈ s.families, f.inc = inc → (g f).wal ≠ none → f.wal ≠ none ∨ s.Current f)
    (hl : ∀ {n e}, s.catalog.lookup n = some e → s.Settled n → cfDir n = d → ∀ l ∈ gl (s.dirs d), ∀ r ∈ l.items, r.inc = e.inc) :
    ((s.setDir d gl).modifyFamily inc g).Owned cfDir := by
  refine h.update rfl (fun f hm => ?_) (fun f hm => ?_) (t := fun _ e => e) (fun n => Option.map_id'.symm)
    (fun hl => ⟨rfl, rfl, h.tables hl⟩) rfl rfl (fun hn hs => logs_setDir (hl hn hs) (h.logs hn hs))
  · split
    case isTrue hi => exact hg f hm hi
    case isFalse => exact .refl (h.stored hm)
  · split
    case isTrue hi => exact hw f hm hi
    case isFalse => exact .inl

theorem commit [DecidableEq I] {unified : Bool} (h : s.Owned cfDir) {inc : Nat} :
    (s.commit unified cfDir inc writes).Owned cfDir := by
  rw [State.commit]
  split
  case h_2 => exact h
  case h_1 f hf =>
    obtain ⟨hm, hinc⟩ := family_mem hf
    dsimp only
    split
    case isTrue => exact h.same rfl rfl rfl rfl rfl
    split
    case h_2 => exact h
    case h_1 gen hwal =>
      refine h.modify (fun f' hm' hi => ⟨rfl, rfl, rfl, rfl, fun r hr => ?_⟩) (fun _ _ _ => .inl)
        fun hl hs hd => logs_appendLog (hd ▸ h.logs hl hs) fun r hr => ?_
      · simp only [Family.stored, mem_append] at hr
        have hold {r} (hr : r ∈ f'.stored) := h.stored hm' r hr
        simp only [Family.stored, mem_append] at hold
        grind
      · obtain ⟨w, _, he⟩ := mem_map.mp hr
        rw [← he, h.logged_inc hm (by simp [hwal]) hl hs hd]
        exact hinc.symm

theorem rotateOwn (h : s.Owned cfDir) {inc : Nat} (he : ∃ f ∈ s.family inc, f.retiring = false) :
    (s.rotateOwn cfDir inc).Owned cfDir := by
  obtain ⟨f, hf, hr⟩ := he
  obtain ⟨hm, hinc⟩ := family_mem hf
  rw [State.rotateOwn, hf]
  dsimp only
  split
  case h_2 => exact h
  case h_1 gen _ =>
    refine h.modify (fun f' hm' _ => ⟨rfl, rfl, rfl, rfl, fun r hr => ?_⟩) (fun f' hm' hi _ => .inr (h.current_of_inc hm hr hm' (hi.trans hinc.symm)))
      fun hl hs hd => logs_openLog (hd ▸ h.logs hl hs)
    · refine h.stored hm' r ?_
      simpa [Family.stored, or_assoc, or_left_comm, or_comm] using hr

omit [DecidableEq D] in
theorem publishOwn (h : s.Owned cfDir) {inc : Nat} (he : ∃ f ∈ s.family inc, f.retiring = false) :
    (s.publishOwn inc).Owned cfDir := by
  obtain ⟨f, hf, hr⟩ := he
  obtain ⟨hm, hinc⟩ := family_mem hf
  rw [State.publishOwn, hf]
  dsimp only
  split
  case h_2 => exact h
  case h_1 imm imms himms =>
    have himm : ∀ r ∈ imm.items ++ imms.flatMap Mem.items, r.inc = inc := by
      intro r hr
      refine (h.stored hm r ?_).trans hinc
      rw [Family.stored, himms, flatMap_cons]
      exact mem_append_left _ (mem_append_right _ hr)
    obtain ⟨e, hl, hi⟩ := h.live hm hr
    refine h.update rfl (fun f' hm' => ?_) (fun f' hm' => ?_) (fun n => ?_)
      (t := fun n e => if n = f.name then { e with tables := imm.items ++ e.tables } else e)
      (fun {n e'} hl' => ?_) rfl rfl h.logs
    · split
      case isFalse => exact .refl (h.stored hm')
      case isTrue hi =>
        refine ⟨rfl, rfl, rfl, rfl, fun r hr => ?_⟩
        have hold {r} (hr : r ∈ f'.stored) := h.stored hm' r hr
        simp only [Family.stored, mem_append, flatMap_cons] at hr hold himm
        grind
    · split
      case isFalse => exact .inl
      case isTrue => exact .inl
    · rw [Map.lookup_modify]
      split
      case isTrue hn => rw [hn]
      case isFalse hn => exact Option.map_id'.symm
    · split
      case isFalse => exact ⟨rfl, rfl, h.tables hl'⟩
      case isTrue hn =>
        rw [hn, hl, Option.some_inj] at hl'
        refine ⟨rfl, rfl, fun r hr => ?_⟩
        cases mem_append.mp hr
        case inl hr => rw [himm r (mem_append_left _ hr), ← hl', hi, hinc]
        case inr hr => exact h.tables (hn ▸ hl' ▸ hl) r hr

theorem removeImmOwn (h : s.Owned cfDir) {inc : Nat} : (s.removeImmOwn cfDir inc).Owned cfDir := by
  rw [State.removeImmOwn]
  split
  case h_2 => exact h
  case h_1 f hf =>
    obtain ⟨hm, hinc⟩ := family_mem hf
    split
    case h_2 => exact h
    case h_1 imm imms himms =>
      refine h.modify (fun f' hm' hi => ⟨rfl, rfl, rfl, rfl, fun r hr => ?_⟩) (fun _ _ _ => .inl)
        fun hl hs hd => logs_filter (hd ▸ h.logs hl hs)
      have hold {r} (hr : r ∈ f'.stored) := h.stored hm' r hr
      have hold' {r} (hr : r ∈ f.stored) := h.stored hm r hr
      simp only [Family.stored, mem_append, himms, flatMap_cons] at hr hold hold'
      grind

end Owned

end State

end OndaDb.Incarnation

import OndaDb.Incarnation.Theorems.Cover
import OndaDb.Incarnation.Theorems.Lifecycle

namespace OndaDb.Incarnation.State

open List

variable {I N D K V : Type} {s s' : State I N D K V} {cfId : N → Nat} {cfDir : N → D}

section Records

variable {r : Record K V}

theorem Known.same (h : s'.Known r) (hm : s'.mems = s.mems) (hf : s'.files = s.files) (hl : s'.floor = s.floor)
    (hp : s'.prepared = s.prepared) : s.Known r := by
  cases h
  case mem h => exact .mem (by rwa [sharedItems, ← hm])
  case data hf' hle h => exact .data (hf ▸ hf') (hl ▸ hle) h
  case prepared hf' h => exact .prepared (hf ▸ hf') h
  case pending hp' h => exact .pending (hp ▸ hp') h

theorem Known.of_rotate (h : s.rotate.Known r) : s.Known r := by
  have hfile {file : File I K V} (hf : file ∈ s.rotate.files) : file ∈ s.files ∨ file.frames = [] := by
    cases mem_append.mp hf
    case inl hf => exact .inl hf
    case inr hf => exact .inr (by rw [mem_singleton.mp hf])
  cases h
  case mem h =>
    refine .mem ?_
    simpa [sharedItems, mems, rotate] using h
  case data hf hle h =>
    cases hfile hf
    case inl hf => exact .data hf hle h
    case inr hf => simp [File.data, hf] at h
  case prepared hf h =>
    cases hfile hf
    case inl hf => exact .prepared hf h
    case inr hf => simp [File.prepared, hf] at h
  case pending hp h => exact .pending hp h

theorem Known.of_publish [DecidableEq N] (h : s.publish.Known r) : s.Known r := by
  rw [publish] at h
  split at h
  case h_2 => exact h
  case h_1 imm imms himms =>
    cases h
    case mem h =>
      refine .mem ?_
      simpa [sharedItems, mems, himms, installShared] using h
    case prepared hf h => exact .prepared hf h
    case pending hp h => exact .pending hp h
    case data hf hle h =>
      refine .data hf (le_trans ?_ hle) h
      dsimp only
      split
      case isTrue => exact le_max_left _ _
      case isFalse => exact le_rfl

theorem Known.of_tail (h : { s with imms := s.imms.tail, poisoned := b }.Known r) : s.Known r := by
  cases h
  case data hf hle h => exact .data hf hle h
  case prepared hf h => exact .prepared hf h
  case pending hp h => exact .pending hp h
  case mem h =>
    obtain ⟨m, hm, h⟩ := mem_flatMap.mp h
    exact .mem (mem_flatMap.mpr ⟨m, Backed.mem_mems_of_tail hm, h⟩)

theorem Known.of_unlink [DecidableEq I] (h : (s.unlink i).Known r) : s.Known r := by
  rw [unlink] at h
  split at h
  case h_3 => exact h
  case h_2 => exact h.same rfl rfl rfl rfl
  case h_1 =>
    cases h
    case mem h => exact .mem h
    case data hf hle h => exact .data (mem_of_mem_filter hf) hle h
    case prepared hf h => exact .prepared (mem_of_mem_filter hf) h
    case pending hp h => exact .pending hp h

theorem mem_survivors (h : file ∈ survivors keep s.files) :
    ∃ file' ∈ s.files, file'.gen = file.gen ∧ (∀ r ∈ file.data, r ∈ file'.data) ∧
      ∀ r ∈ file.prepared, r ∈ file'.prepared := by
  obtain ⟨file', hf, he⟩ := mem_map.mp h
  subst he
  refine ⟨file', hf, rfl, fun r hr => ?_, fun r hr => ?_⟩
  all_goals
    simp only [File.data, File.prepared, flatMap_map] at hr ⊢
    obtain ⟨frame, hm, hr⟩ := mem_flatMap.mp hr
    refine mem_flatMap.mpr ⟨frame, hm, ?_⟩
    cases frame <;> simp_all [survivingFrame, Frame.dataItems, Frame.preparedItems]

theorem mem_prepares {files : List (File I K V)} {p : PreparedEntry I K V} (h : p ∈ prepares files)
    (hr : r ∈ p.items) : ∃ file ∈ files, r ∈ file.prepared := by
  obtain ⟨file, hf, hp⟩ := mem_flatMap.mp h
  obtain ⟨frame, hm, he⟩ := mem_filterMap.mp hp
  refine ⟨file, hf, mem_flatMap.mpr ⟨frame, hm, ?_⟩⟩
  cases frame
  case prepare id items =>
    have he := Option.some_inj.mp he
    subst he
    exact hr
  case data => cases he
  case decision => cases he

theorem Known.of_crash [DecidableEq I] [DecidableEq N] [DecidableEq D] {keep : Record K V → Bool}
    (h : (s.crash cfDir keep).Known r) : s.Known r := by
  have hprep {p} (hp : p ∈ prepares (survivors keep s.files)) (hr : r ∈ p.items) : s.Known r := by
    obtain ⟨file, hf, hr⟩ := mem_prepares hp hr
    obtain ⟨file', hf', _, _, hi⟩ := mem_survivors hf
    exact .prepared hf' (hi r hr)
  have hdata {file} (hf : file ∈ survivors keep s.files) (hle : s.floor ≤ file.gen) (hr : r ∈ file.data) :
      s.Known r := by
    obtain ⟨file', hf', hg, hi, _⟩ := mem_survivors hf
    exact .data hf' (hg ▸ hle) (hi r hr)
  cases h
  case pending hp h => exact hprep (mem_of_mem_filter hp) h
  case data file hf hle h =>
    cases mem_append.mp hf
    case inl hf => exact hdata hf hle h
    case inr hf => simp [mem_singleton.mp hf, File.data] at h
  case prepared file hf h =>
    cases mem_append.mp hf
    case inr hf => simp [mem_singleton.mp hf, File.prepared] at h
    case inl hf =>
      obtain ⟨file', hf', _, _, hi⟩ := mem_survivors hf
      exact .prepared hf' (hi r h)
  case mem h =>
    have h : r ∈ replayed s.floor (survivors keep s.files) := by
      simpa [sharedItems, mems, crash] using h
    cases mem_append.mp h
    case inl h =>
      obtain ⟨file, hf, hr⟩ := mem_flatMap.mp h
      obtain ⟨hf, hle⟩ := mem_filter.mp hf
      exact hdata hf (of_decide_eq_true hle) hr
    case inr h =>
      obtain ⟨p, hp, hr⟩ := mem_flatMap.mp h
      split at hr
      case isTrue => exact hprep hp hr
      case isFalse => cases hr

end Records

variable [DecidableEq N]

theorem Carries.of_modify {inc : Nat} {op : Option (Op N)} {id i : Nat}
    (h : { s.modifyFamily inc g with op := op }.Carries id i) (hg : ∀ f, (g f).id = f.id ∧ (g f).inc = f.inc) :
    s.Carries id i := by
  refine h.of_families (fun f hf => ?_) fun n e hl => ⟨e, hl, rfl, rfl⟩
  exact families_modifyFamily hg f hf

theorem Carries.same {id i : Nat} (h : s'.Carries id i) (hf : s'.families = s.families)
    (hc : s'.catalog = s.catalog) : s.Carries id i :=
  h.of_families (fun f hm => ⟨f, hf ▸ hm, rfl, rfl⟩) fun _ e hl => ⟨e, hc ▸ hl, rfl, rfl⟩

namespace Routed

theorem start : (start : State I N D K V).Routed where
  carries hc := by
    cases hc
    case family hf _ _ => cases hf
    case entry hn _ _ => cases hn
  known hr := by
    cases hr
    case mem h => simp [sharedItems, mems, State.start] at h
    case data hf _ h => simp [mem_singleton.mp hf, File.data] at h
    case prepared hf h => simp [mem_singleton.mp hf, File.prepared] at h
    case pending hp _ => cases hp
  fresh ho := by cases ho

theorem retire (h : s.Routed) {name : N} {fresh : Entry K V → Option Nat}
    (hb : ∀ e, s.catalog.lookup name = some e → ∀ id, fresh e = some id → s.Blank id) :
    (s.retire name fresh).Routed := by
  rw [State.retire]
  split
  case h_2 => exact h
  case h_1 e hl =>
    have hc : ∀ {id i}, { s.modifyFamily e.inc ({ · with retiring := true }) with
        op := some ⟨name, e.inc, fresh e, .begun⟩ }.Carries id i → s.Carries id i :=
      fun hi => hi.of_modify fun f => ⟨rfl, rfl⟩
    refine ⟨fun hi hj => h.carries (hc hi) (hc hj), fun hr hi => h.known (hr.same rfl rfl rfl rfl) (hc hi),
      fun ho _ hid => ?_⟩
    rw [← Option.some_inj.mp ho] at hid
    exact (hb e hl _ hid).mono hc (fun hr => hr.same rfl rfl rfl rfl)

theorem refuse (h : s.Routed) : s.refuse.Routed := by
  rw [State.refuse]
  split
  case h_2 => exact h
  case h_1 =>
    exact h.mono (fun hi => hi.of_modify fun f => ⟨rfl, rfl⟩)
      (fun hr => hr.same rfl rfl rfl rfl) fun ho => by cases ho

theorem close (h : s.Routed) : s.close.Routed := by
  rw [State.close]
  split
  case h_2 => exact h
  case h_1 =>
    refine h.mono (fun hi => hi.of_modify fun f => ⟨rfl, rfl⟩)
      (fun hr => hr.same rfl rfl rfl rfl) fun ho hp => ?_
    rw [← Option.some_inj.mp ho] at hp
    cases hp

theorem edit (h : s.Routed) (hb : ∃ o ∈ s.op, o.phase = .begun) : s.edit.Routed := by
  obtain ⟨o, hop, hp⟩ := hb
  have hop : s.op = some o := hop
  have hphase : ∀ {o'}, s.edit.op = some o' → o'.phase ≠ .begun := by
    intro o' ho
    simp only [State.edit, hop, Option.some_inj] at ho
    simp [← ho]
  have hknown : ∀ {r}, s.edit.Known r → s.Known r := by
    intro r hr
    refine hr.same ?_ ?_ ?_ ?_ <;> simp [State.edit, hop, mems]
  cases hid : o.fresh
  case none =>
    refine h.mono (fun hi => ?_) hknown fun ho hp' => absurd hp' (hphase ho)
    refine hi.of_families (fun f hf => ⟨f, ?_, rfl, rfl⟩) fun n e hl => ⟨e, ?_, rfl, rfl⟩
    · simpa [State.edit, hop] using hf
    · simp only [State.edit, hop, hid, Map.lookup_erase_eq] at hl
      split at hl
      case isTrue => cases hl
      case isFalse => exact hl
  case some id =>
    refine h.give (h.fresh hop hp hid) (i := s.nextInc) (fun hc => ?_) hknown hphase
    cases hc
    case family hf hi hinc =>
      refine .inl (.family ?_ hi hinc)
      simpa [State.edit, hop] using hf
    case entry n e hl hi hinc =>
      simp only [State.edit, hop, hid, Map.lookup_insert_eq] at hl
      split at hl
      case isTrue =>
        rw [Option.some_inj] at hl
        subst hl
        exact .inr ⟨hi.symm, hinc.symm⟩
      case isFalse => exact .inl (.entry hl hi hinc)

theorem unlinkOwn [DecidableEq D] (h : s.Routed) {gen : Nat} : (s.unlinkOwn cfDir gen).Routed := by
  rw [State.unlinkOwn]
  split
  case h_2 => exact h
  case h_1 =>
    exact h.mono (fun hi => hi.same rfl rfl) (fun hr => hr.same rfl rfl rfl rfl) fun ho _ _ => ho

theorem createFamily [DecidableEq D] (h : s.Routed) (hl : s.catalog.lookup n = some e) :
    { s.createFamily cfDir e.inc n e.id with op := none }.Routed := by
  refine h.mono (fun hc => ?_) (fun hr => hr.same rfl rfl rfl rfl) fun ho => by cases ho
  cases hc
  case entry hn hi hinc => exact .entry hn hi hinc
  case family hf hi hinc =>
    cases mem_append.mp hf
    case inl hf => exact .family hf hi hinc
    case inr hf =>
      have hf := mem_singleton.mp hf
      subst hf
      exact .entry hl hi hinc

theorem wipe [DecidableEq D] (h : s.Routed) (ho : s.Owned cfDir) (hb : ∃ o ∈ s.op, o.phase = .closed) :
    (s.wipe cfDir).Routed := by
  obtain ⟨o, hop, hp⟩ := hb
  have hop : s.op = some o := hop
  simp only [State.wipe, hop]
  split
  case h_1 id e hid hl =>
    have he := ho.edited hop (by simp [hp]) hl
    rw [hid, Option.some_inj] at he
    subst he
    exact h.createFamily hl
  case h_2 =>
    exact h.mono (fun hi => hi.same rfl rfl)
      (fun hr => hr.same rfl rfl rfl rfl) fun ho => by cases ho

theorem create [DecidableEq D] (h : s.Routed) (hb : s.Blank (s.chooseUnifiedId true cfId name [] draw))
    (hop : s.op = none) :
    (s.create true cfId cfDir name draw).Routed := by
  refine h.give (i := s.nextInc) hb (fun hc => ?_) (fun hr => hr.same rfl rfl rfl rfl) fun {o} ho => ?_
  · cases hc
    case family hf hi hinc =>
      cases mem_append.mp hf
      case inl hf => exact .inl (.family hf hi hinc)
      case inr hf =>
        have hf := mem_singleton.mp hf
        subst hf
        exact .inr ⟨hi.symm, hinc.symm⟩
    case entry n e hl hi hinc =>
      simp only [State.create, Map.lookup_insert_eq] at hl
      split at hl
      case isFalse => exact .inl (.entry hl hi hinc)
      rw [Option.some_inj] at hl
      subst hl
      exact .inr ⟨hi.symm, hinc.symm⟩
  · have ho : s.op = some o := ho
    rw [hop] at ho
    cases ho

theorem commit [DecidableEq D] (h : s.Routed) :
    (s.commit true cfDir inc writes).Routed := by
  rw [State.commit]
  split
  case h_2 => exact h
  case h_1 f hf =>
    dsimp only
    rw [if_pos rfl]
    refine h.add (fun hi => hi.same rfl rfl)
      (fun {r} hr => ?_) rfl
    have hitem (hr : r ∈ writes.map fun w => (⟨inc, f.id, w.1, w.2⟩ : Record K V)) : s.Carries r.cf r.inc := by
      obtain ⟨w, _, he⟩ := mem_map.mp hr
      subst he
      exact family_carries hf
    cases hr.of_addActive
    case inr hr => exact .inr (hitem hr)
    case inl hr =>
      cases hr.of_append
      case inl hr => exact .inl hr
      case inr hr => exact .inr (hitem (hr.resolve_right not_mem_nil))

theorem mem_prepareItems (h : r ∈ s.prepareItems writes) :
    s.Carries r.cf r.inc := by
  obtain ⟨w, _, he⟩ := mem_filterMap.mp h
  obtain ⟨f, hf, he⟩ := Option.map_eq_some_iff.mp he
  subst he
  exact family_carries hf

theorem prepare (h : s.Routed) {id : I} : (s.prepare id writes).Routed := by
  refine h.add (fun hi => hi.same rfl rfl)
    (fun {r} hr => ?_) rfl
  have happ : (s.append (.prepare id (s.prepareItems writes))).Known r ∨ r ∈ s.prepareItems writes := by
    cases hr
    case mem h => exact .inl (.mem h)
    case data hf hle h => exact .inl (.data hf hle h)
    case prepared hf h => exact .inl (.prepared hf h)
    case pending hp h =>
      cases mem_append.mp hp
      case inl hp => exact .inl (.pending hp h)
      case inr hp =>
        have hp := mem_singleton.mp hp
        subst hp
        exact .inr h
  cases happ
  case inr hr => exact .inr (mem_prepareItems hr)
  case inl hr =>
    cases hr.of_append
    case inl hr => exact .inl hr
    case inr hr => exact .inr (mem_prepareItems (hr.resolve_left not_mem_nil))

theorem decide [DecidableEq I] (h : s.Routed) {id : I} {commit : Bool} : (s.decide id commit).Routed := by
  rw [State.decide]
  split
  case h_2 => exact h
  case h_1 p hp =>
    have hp := mem_of_find?_eq_some hp
    have hfam : (if commit then (s.append (.decision id commit)).addActive p.items
        else s.append (.decision id commit)).families = s.families := by split <;> rfl
    have hcat : (if commit then (s.append (.decision id commit)).addActive p.items
        else s.append (.decision id commit)).catalog = s.catalog := by split <;> rfl
    refine h.mono (fun hi => hi.same hfam hcat) (fun {r} hr => ?_) (fun ho _ _ => ?_)
    · have hdec (hr : (s.append (.decision id commit)).Known r) : s.Known r :=
        hr.of_append.resolve_right fun hr => by simp [Frame.dataItems, Frame.preparedItems] at hr
      have hadd : (if commit then (s.append (.decision id commit)).addActive p.items
          else s.append (.decision id commit)).Known r ∨ s.Known r := by
        cases hr
        case mem h => exact .inl (.mem h)
        case data hf hle h => exact .inl (.data hf hle h)
        case prepared hf h => exact .inl (.prepared hf h)
        case pending hp h => exact .inr (.pending (mem_of_mem_filter hp) h)
      cases hadd
      case inr hr => exact hr
      case inl hr =>
        split at hr
        case isFalse => exact hdec hr
        case isTrue => exact hr.of_addActive.elim hdec fun hr => .pending hp hr
    · dsimp only at ho
      split at ho <;> exact ho

theorem rotate (h : s.Routed) : s.rotate.Routed :=
  h.mono (fun hi => hi.same rfl rfl) Known.of_rotate fun ho _ _ => ho

theorem publish (h : s.Routed) : s.publish.Routed := by
  have hop : s.publish.op = s.op := by
    rw [State.publish]
    split <;> rfl
  refine h.mono (fun hi => hi.of_families (fun f hf => ?_) fun n e hl => ?_) Known.of_publish
    fun ho _ _ => hop ▸ ho
  · rw [State.publish] at hf
    split at hf
    case h_2 => exact ⟨f, hf, rfl, rfl⟩
    case h_1 =>
      obtain ⟨f', hf', he⟩ := mem_map.mp hf
      subst he
      refine ⟨f', hf', ?_⟩
      split <;> exact ⟨rfl, rfl⟩
  · rw [State.publish] at hl
    split at hl
    case h_2 => exact ⟨e, hl, rfl, rfl⟩
    case h_1 =>
      have hl := (Map.lookup_mapValues _ n).symm.trans hl
      obtain ⟨e', hl', he⟩ := Option.map_eq_some_iff.mp hl
      subst he
      refine ⟨e', hl', ?_⟩
      split <;> exact ⟨rfl, rfl⟩

theorem tail (h : s.Routed) : { s with imms := s.imms.tail, poisoned := b }.Routed :=
  h.mono (fun hi => hi.same rfl rfl) Known.of_tail fun ho _ _ => ho

theorem sweep (h : s.Routed) : s.sweep.Routed :=
  h.mono (fun hi => hi.same rfl rfl) (fun hr => hr.same rfl rfl rfl rfl) fun ho _ _ => ho

theorem unlink [DecidableEq I] (h : s.Routed) : (s.unlink i).Routed := by
  have hsame : (s.unlink i).families = s.families ∧ (s.unlink i).catalog = s.catalog ∧ (s.unlink i).op = s.op := by
    rw [State.unlink]
    split <;> exact ⟨rfl, rfl, rfl⟩
  exact h.mono (fun hi => hi.same hsame.left hsame.right.left) Known.of_unlink
    fun ho _ _ => hsame.right.right ▸ ho

theorem modify (h : s.Routed) {inc : Nat} {c : Map N (Entry K V)} {dirs : D → List (Log K V)}
    (hg : ∀ f, (g f).id = f.id ∧ (g f).inc = f.inc)
    (hc : ∀ n e', c.lookup n = some e' → ∃ e, s.catalog.lookup n = some e ∧ e.id = e'.id ∧ e.inc = e'.inc) :
    { s.modifyFamily inc g with catalog := c, dirs := dirs }.Routed :=
  h.mono (fun hi => hi.of_families (families_modifyFamily hg) hc) (fun hr => hr.same rfl rfl rfl rfl)
    fun ho _ _ => ho

theorem rotateOwn [DecidableEq D] (h : s.Routed) {inc : Nat} : (s.rotateOwn cfDir inc).Routed := by
  rw [State.rotateOwn]
  split
  case h_2 => exact h
  case h_1 =>
    split
    case h_2 => exact h
    case h_1 => exact h.modify (fun f => ⟨rfl, rfl⟩) fun _ e hl => ⟨e, hl, rfl, rfl⟩

theorem removeImmOwn [DecidableEq D] (h : s.Routed) {inc : Nat} : (s.removeImmOwn cfDir inc).Routed := by
  rw [State.removeImmOwn]
  split
  case h_2 => exact h
  case h_1 =>
    split
    case h_2 => exact h
    case h_1 => exact h.modify (fun f => ⟨rfl, rfl⟩) fun _ e hl => ⟨e, hl, rfl, rfl⟩

theorem publishOwn (h : s.Routed) {inc : Nat} : (s.publishOwn inc).Routed := by
  rw [State.publishOwn]
  split
  case h_2 => exact h
  case h_1 f _ =>
    split
    case h_2 => exact h
    case h_1 =>
      refine h.modify (fun f => ⟨rfl, rfl⟩) fun n e' hl => ?_
      rw [Map.lookup_modify] at hl
      split at hl
      case isFalse => exact ⟨e', hl, rfl, rfl⟩
      case isTrue hn =>
        obtain ⟨e, hl', he⟩ := Option.map_eq_some_iff.mp hl
        subst he
        exact ⟨e, hn ▸ hl', rfl, rfl⟩

theorem crash [DecidableEq I] [DecidableEq D] (h : s.Routed) :
    (s.crash cfDir keep).Routed := by
  refine h.mono (fun hc => ?_) Known.of_crash fun ho => by cases ho
  cases hc
  case entry hl hi hinc => exact .entry hl hi hinc
  case family hf hi hinc =>
    obtain ⟨n, e, hl, he⟩ := Owned.mem_families_crash hf
    subst he
    exact .entry hl hi hinc

end Routed

end OndaDb.Incarnation.State

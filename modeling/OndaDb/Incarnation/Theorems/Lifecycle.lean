import OndaDb.Incarnation.Theorems.Own

namespace OndaDb.Incarnation.State

open List

variable {I N D K V : Type} [DecidableEq N] [DecidableEq D] {s s' : State I N D K V} {cfDir : N → D}

omit [DecidableEq N] [DecidableEq D] in
theorem Vacant.logs {d : D} {P : Record K V → Prop} (h : s.Vacant d) : ∀ l ∈ s.dirs d, ∀ r ∈ l.items, P r := by
  intro l hl r hr
  rw [h l hl] at hr
  cases hr

namespace Owned

theorem unlinkOwn (h : s.Owned cfDir) {gen : Nat} : (s.unlinkOwn cfDir gen).Owned cfDir := by
  rw [State.unlinkOwn]
  split
  case h_2 => exact h
  case h_1 o _ =>
    exact h.update (map_id _).symm (fun f hm => .refl (h.stored hm)) (fun _ _ => .inl) (t := fun _ e => e)
      (fun n => Option.map_id'.symm) (fun hl => ⟨rfl, rfl, h.tables hl⟩) rfl rfl
      fun hl hs => logs_setDir (fun hd => logs_filter (hd ▸ h.logs hl hs)) (h.logs hl hs)

theorem createFamily (h : s.Owned cfDir) {e : Entry K V} {n : N} (hl : s.catalog.lookup n = some e)
    (hv : s.Vacant (cfDir n)) (ho : ∀ o, s.op = some o → o.name = n ∧ o.phase = .closed) :
    { s.createFamily cfDir e.inc n e.id with op := none }.Owned cfDir := by
  set f : Family N K V := ⟨e.inc, n, e.id, some 0, ⟨[], [0], false⟩, [], [], false⟩ with hf
  have hfam {f'} (hm : f' ∈ s.families ++ [f]) : f' ∈ s.families ∨ f' = f := by simpa using hm
  have hset {n'} (hn : n' ≠ n) : s.Settled n' := fun o hop hname => absurd ((ho o hop).left ▸ hname).symm hn
  have hcur : s.Current f := ⟨e, hl, rfl⟩
  constructor
  case stored =>
    intro f' hm
    cases hfam hm
    case inl hm => exact h.stored hm
    case inr hm => simp [hm, hf, Family.stored]
  case tables => exact h.tables
  case logs =>
    intro n' e' hl' _
    by_cases hn : n' = n
    case pos =>
      subst hn
      exact logs_setDir (fun _ => logs_openLog hv.logs) hv.logs
    refine logs_setDir (fun hd => absurd ?_ hn) (h.logs hl' (hset hn))
    exact h.apart (.inl ⟨e', hl'⟩) (.inl ⟨e, hl⟩) hd
  case logged =>
    intro f' hm hw
    cases hfam hm
    case inr hm => exact .inl (hm ▸ hcur)
    case inl hm =>
      cases h.logged hm hw
      case inl hc => exact .inl hc
      case inr hc =>
        obtain ⟨o, hop, _, _, hp⟩ := hc
        rw [(ho o hop).right] at hp
        cases hp
  case live =>
    intro f' hm hr
    cases hfam hm
    case inl hm => exact h.live hm hr
    case inr hm => exact hm ▸ hcur
  case named =>
    intro n' e' f' hl' hm hi
    cases hfam hm
    case inl hm => exact h.named hl' hm hi
    case inr hm =>
      rw [hm] at hi ⊢
      exact h.distinct hl hl' hi
  case present =>
    intro n' e' (hl' : s.catalog.lookup n' = some e')
    by_cases hn : n' = n
    case pos =>
      rw [hn, hl, Option.some_inj] at hl'
      exact .inl ⟨f, mem_append_right _ (mem_singleton_self _), hl' ▸ rfl, hl' ▸ rfl⟩
    obtain ⟨f', hm, hp⟩ := (h.present hl').resolve_right fun hp => hp (hset hn)
    exact .inl ⟨f', mem_append_left _ hm, hp⟩
  case begun => intro o hop; cases hop
  case retired => intro o f' hop; cases hop
  case edited => intro o e' hop; cases hop
  case distinct => exact h.distinct
  case apart =>
    intro n₁ n₂ h₁ h₂
    exact h.apart (.inl (h₁.resolve_right (by simp))) (.inl (h₂.resolve_right (by simp)))
  case bound => exact h.bound
  case bounds =>
    intro f' hm
    cases hfam hm
    case inl hm => exact h.bounds hm
    case inr hm => exact hm ▸ h.bound hl

omit [DecidableEq D] in
-- The catalog takes a name from its incarnation, or gives it to a new one, while the operation on
-- the name is under way.
theorem rename (h : s.Owned cfDir) (hp : o.phase ≠ .begun)
    (hc : ∀ n, n ≠ o.name → c.lookup n = s.catalog.lookup n)
    (hn : ∀ e, c.lookup o.name = some e → e.inc = s.nextInc ∧ o.fresh = some e.id ∧ e.tables = [])
    (hb : ∀ o, s.op = some o → o.phase = .begun)
    (ho : ∀ f ∈ s.families, f.name = o.name → s.Current f → f.inc = o.old ∧ o.phase = .edited)
    (hr : ∀ f ∈ s.families, f.inc = o.old → f.retiring = true)
    (ha : ∀ n, s.Housed n → cfDir n = cfDir o.name → n = o.name) :
    { s with catalog := c, nextInc := s.nextInc + 1, op := some o }.Owned cfDir := by
  have hset {n} : s.Settled n := fun o' hop _ => hb o' hop
  have hcur {f} (hf : f.name ≠ o.name) (hf' : s.Current f) :
      { s with catalog := c, nextInc := s.nextInc + 1, op := some o }.Current f := by
    obtain ⟨e, hl, hi⟩ := hf'
    exact ⟨e, (hc _ hf).trans hl, hi⟩
  have hhouse {n} (hh : { s with catalog := c, nextInc := s.nextInc + 1, op := some o }.Housed n) :
      n = o.name ∨ s.Housed n := by
    by_cases hno : n = o.name
    case pos => exact .inl hno
    cases hh
    case inl hh => exact .inr (.inl ⟨hh.choose, (hc n hno).symm.trans hh.choose_spec⟩)
    case inr hh =>
      obtain ⟨o', hop, hname⟩ := hh
      rw [← Option.some_inj.mp hop] at hname
      exact .inl hname.symm
  constructor
  case stored => exact h.stored
  case tables =>
    intro n e (hl : c.lookup n = some e)
    by_cases hno : n = o.name
    case pos => simp [(hn e (hno ▸ hl)).right.right]
    case neg => exact h.tables ((hc n hno).symm.trans hl)
  case logs =>
    intro n e (hl : c.lookup n = some e) hs
    by_cases hno : n = o.name
    case pos => exact absurd (hs o rfl hno.symm) hp
    case neg => exact h.logs ((hc n hno).symm.trans hl) hset
  case logged =>
    intro f hm hw
    cases h.logged hm hw
    case inr hl =>
      obtain ⟨o', hop, _, _, hp'⟩ := hl
      rw [hb o' hop] at hp'
      cases hp'
    case inl hl =>
      by_cases hf : f.name = o.name
      case neg => exact .inl (hcur hf hl)
      obtain ⟨hi, hp'⟩ := ho f hm hf hl
      exact .inr ⟨o, rfl, hf.symm, hi.symm, hp'⟩
  case live =>
    intro f hm hf
    by_cases hfo : f.name = o.name
    case neg => exact hcur hfo (h.live hm hf)
    rw [hr f hm (ho f hm hfo (h.live hm hf)).left] at hf
    cases hf
  case named =>
    intro n e f (hl : c.lookup n = some e) hm hi
    by_cases hno : n = o.name
    case neg => exact h.named ((hc n hno).symm.trans hl) hm hi
    have hlt := h.bounds hm
    rw [hi, (hn e (hno ▸ hl)).left] at hlt
    exact absurd hlt (lt_irrefl _)
  case present =>
    intro n e (hl : c.lookup n = some e)
    by_cases hno : n = o.name
    case pos => exact .inr fun hs => hp (hs o rfl hno.symm)
    case neg => exact .inl ((h.present ((hc n hno).symm.trans hl)).resolve_right fun hs => hs hset)
  case begun =>
    intro o' hop hp'
    exact absurd (Option.some_inj.mp hop ▸ hp') hp
  case retired =>
    intro o' f hop hm
    rw [← Option.some_inj.mp hop]
    exact hr f hm
  case edited =>
    intro o' e hop _ (hl : c.lookup o'.name = some e)
    rw [← Option.some_inj.mp hop] at hl ⊢
    exact (hn e hl).right.left
  case distinct =>
    intro n n' e e' (hl : c.lookup n = some e) (hl' : c.lookup n' = some e') hi
    have hlt {n e} (hno : n ≠ o.name) (hl : c.lookup n = some e) : e.inc < s.nextInc :=
      h.bound ((hc n hno).symm.trans hl)
    by_cases hno : n = o.name
    case pos =>
      by_cases hno' : n' = o.name
      case pos => exact hno.trans hno'.symm
      case neg => exact absurd ((hn e (hno ▸ hl)).left.symm.trans hi) (hlt hno' hl').ne'
    by_cases hno' : n' = o.name
    case pos => exact absurd (hi.trans (hn e' (hno' ▸ hl')).left) (hlt hno hl).ne
    case neg => exact h.distinct ((hc n hno).symm.trans hl) ((hc n' hno').symm.trans hl') hi
  case apart =>
    intro n n' hh hh' hd
    cases hhouse hh <;> cases hhouse hh'
    case inl.inl hno hno' => exact hno.trans hno'.symm
    case inl.inr hno hh' => exact hno.trans (ha n' hh' (hd ▸ hno ▸ rfl)).symm
    case inr.inl hh hno' => exact (ha n hh (hno' ▸ hd)).trans hno'.symm
    case inr.inr hh hh' => exact h.apart hh hh' hd
  case bound =>
    intro n e (hl : c.lookup n = some e)
    by_cases hno : n = o.name
    case pos => exact (hn e (hno ▸ hl)).left ▸ Nat.lt_succ_self _
    case neg => exact (h.bound ((hc n hno).symm.trans hl)).trans (Nat.lt_succ_self _)
  case bounds =>
    intro f hm
    exact (h.bounds hm).trans (Nat.lt_succ_self _)

omit [DecidableEq D] in
theorem edit (h : s.Owned cfDir) (hb : ∃ o ∈ s.op, o.phase = .begun) : s.edit.Owned cfDir := by
  obtain ⟨o, hop, hp⟩ := hb
  have hop : s.op = some o := hop
  obtain ⟨e, hl, hi⟩ := h.begun hop hp
  simp only [State.edit, hop]
  refine h.rename (o := { o with phase := .edited }) (by simp) (fun n hn => ?_) (fun e' hl' => ?_) (fun o' hop' => ?_)
    (fun f hm hf hc => ⟨?_, rfl⟩) (fun f hm hf => h.retired hop hm hf) (fun n hh => h.apart hh (.inr ⟨o, hop, rfl⟩))
  · dsimp only at hn ⊢
    split
    case h_1 => exact AList.lookup_insert_ne hn
    case h_2 => exact AList.lookup_erase_ne hn
  · dsimp only at hl' ⊢
    split at hl'
    case h_1 id hid =>
      rw [AList.lookup_insert, Option.some_inj] at hl'
      exact ⟨hl' ▸ rfl, hl' ▸ hid, hl' ▸ rfl⟩
    case h_2 =>
      rw [AList.lookup_erase] at hl'
      cases hl'
  · rw [hop, Option.some_inj] at hop'
    exact hop' ▸ hp
  · obtain ⟨e', hl', hi'⟩ := hc
    rw [hf, hl, Option.some_inj] at hl'
    rw [← hi', ← hl', hi]

omit [DecidableEq D] in
theorem setOp (h : s.Owned cfDir) {inc : Nat} {op : Option (Op N)}
    (hg : ∀ f, (g f).inc = f.inc ∧ (g f).name = f.name ∧ (g f).id = f.id ∧ (g f).stored = f.stored)
    (hs : ∀ {n e}, s.catalog.lookup n = some e → { s with op := op }.Settled n → s.Settled n)
    (hh : ∀ {o}, op = some o → s.Housed o.name)
    (hw : ∀ f ∈ s.families, (if f.inc = inc then g f else f).wal ≠ none → s.Current f ∨ ∃ o, op = some o ∧ o.name = f.name ∧ o.old = f.inc ∧ o.phase = .edited)
    (hl : ∀ f ∈ s.families, (if f.inc = inc then g f else f).retiring = false → s.Current f)
    (hb : ∀ {o}, op = some o → o.phase = .begun → ∃ e, s.catalog.lookup o.name = some e ∧ e.inc = o.old)
    (hr : ∀ {o f}, op = some o → f ∈ s.families → f.inc = o.old → (if f.inc = inc then g f else f).retiring = true)
    (he : ∀ {o e}, op = some o → o.phase ≠ .begun → s.catalog.lookup o.name = some e → o.fresh = some e.id) :
    { s.modifyFamily inc g with op := op }.Owned cfDir := by
  have hfam {f'} (hm : f' ∈ (s.modifyFamily inc g).families) : ∃ f ∈ s.families,
      (if f.inc = inc then g f else f) = f' ∧ f'.inc = f.inc ∧ f'.name = f.name ∧ f'.stored = f.stored := by
    obtain ⟨f, hm, hf⟩ := mem_modifyFamily.mp hm
    refine ⟨f, hm, hf, ?_⟩
    rw [← hf]
    split
    case isTrue => exact ⟨(hg f).left, (hg f).right.left, (hg f).right.right.right⟩
    case isFalse => exact ⟨rfl, rfl, rfl⟩
  have hcur {f f' : Family N K V} (hi : f'.inc = f.inc) (hn : f'.name = f.name) (hc : s.Current f) : s.Current f' := by
    rw [Current, hn, hi]
    exact hc
  have hhouse {n} (hn : { s.modifyFamily inc g with op := op }.Housed n) : s.Housed n := by
    cases hn
    case inl hn => exact .inl hn
    case inr hn => exact hn.choose_spec.right ▸ hh hn.choose_spec.left
  constructor
  case stored =>
    intro f' hm
    obtain ⟨f, hm, _, hi, _, hst⟩ := hfam hm
    rw [hst, hi]
    exact h.stored hm
  case tables => exact h.tables
  case logs => exact fun hl hset => h.logs hl (hs hl hset)
  case logged =>
    intro f' hm hwal
    obtain ⟨f, hm, hf, hi, hn, _⟩ := hfam hm
    cases hw f hm (hf ▸ hwal)
    case inl hc => exact .inl (hcur hi hn hc)
    case inr ho =>
      obtain ⟨o, hop, hname, hold, hp⟩ := ho
      exact .inr ⟨o, hop, hname.trans hn.symm, hold.trans hi.symm, hp⟩
  case live =>
    intro f' hm hret
    obtain ⟨f, hm, hf, hi, hn, _⟩ := hfam hm
    exact hcur hi hn (hl f hm (hf ▸ hret))
  case named =>
    intro n e f' hl hm hinc
    obtain ⟨f, hm, _, hi, hn, _⟩ := hfam hm
    rw [hn]
    exact h.named hl hm (hi ▸ hinc)
  case present =>
    intro n e hl
    refine (h.present hl).imp (fun hp => ?_) (fun hp hset => hp (hs hl hset))
    obtain ⟨f, hm, hi, hid⟩ := hp
    refine ⟨_, mem_modifyFamily.mpr ⟨f, hm, rfl⟩, ?_⟩
    split
    case isTrue => exact ⟨(hg f).left.trans hi, (hg f).right.right.left.trans hid⟩
    case isFalse => exact ⟨hi, hid⟩
  case begun => exact hb
  case retired =>
    intro o f' hop hm hold
    obtain ⟨f, hm, hf, hi, _, _⟩ := hfam hm
    rw [← hf]
    exact hr hop hm (hi ▸ hold)
  case edited => exact he
  case distinct => exact h.distinct
  case apart => exact fun hn hn' => h.apart (hhouse hn) (hhouse hn')
  case bound => exact h.bound
  case bounds =>
    intro f' hm
    obtain ⟨f, hm, _, hi, _, _⟩ := hfam hm
    exact hi ▸ h.bounds hm

omit [DecidableEq D] in
theorem retire (h : s.Owned cfDir) {name : N} (hop : s.op = none) :
    (s.retire name fresh).Owned cfDir := by
  rw [State.retire]
  split
  case h_2 => exact h
  case h_1 e hl =>
    refine h.setOp (fun f => ⟨rfl, rfl, rfl, rfl⟩) (fun _ _ => settled_of_none hop _)
      (fun ho => Option.some_inj.mp ho ▸ .inl ⟨e, hl⟩) (fun f hm hw => .inl ?_) (fun f hm hr => h.live hm ?_)
      (fun ho _ => Option.some_inj.mp ho ▸ ⟨e, hl, rfl⟩) (fun {o f} ho hm hold => ?_)
      (fun ho hp => absurd (Option.some_inj.mp ho ▸ rfl) hp)
    · have hw' : f.wal ≠ none := by
        split at hw <;> exact hw
      refine (h.logged hm hw').resolve_right fun ho => ?_
      rw [hop] at ho
      cases ho.choose_spec.left
    · split at hr
      case isTrue => cases hr
      case isFalse => exact hr
    · rw [← Option.some_inj.mp ho] at hold
      rw [if_pos hold]

omit [DecidableEq D] in
theorem refuse (h : s.Owned cfDir) (hb : ∃ o ∈ s.op, o.phase = .begun) : s.refuse.Owned cfDir := by
  obtain ⟨o, hop, hp⟩ := hb
  have hop : s.op = some o := hop
  obtain ⟨e, hl, hi⟩ := h.begun hop hp
  have hset {n} : s.Settled n := by
    intro o' hop' _
    rw [hop, Option.some_inj] at hop'
    exact hop' ▸ hp
  simp only [State.refuse, hop]
  refine h.setOp (fun f => ⟨rfl, rfl, rfl, rfl⟩) (fun _ _ => hset) (fun ho => by cases ho) (fun f hm hw => .inl ?_)
    (fun f hm hr => ?_) (fun ho => by cases ho) (fun ho => by cases ho) (fun ho => by cases ho)
  · have hw' : f.wal ≠ none := by
      split at hw <;> exact hw
    refine (h.logged hm hw').resolve_right fun ho => ?_
    obtain ⟨o', hop', _, _, hp'⟩ := ho
    rw [hop, Option.some_inj] at hop'
    rw [← hop', hp] at hp'
    cases hp'
  · split at hr
    case isTrue hf =>
      refine ⟨e, ?_, hi.trans hf.symm⟩
      rw [h.named hl hm (hf.trans hi.symm)]
      exact hl
    case isFalse => exact h.live hm hr

omit [DecidableEq D] in
theorem close (h : s.Owned cfDir) (hb : ∃ o ∈ s.op, o.phase = .edited) : s.close.Owned cfDir := by
  obtain ⟨o, hop, hp⟩ := hb
  have hop : s.op = some o := hop
  simp only [State.close, hop]
  refine h.setOp (fun f => ⟨rfl, rfl, rfl, rfl⟩) (fun _ hs o' hop' hn => ?_)
    (fun ho => Option.some_inj.mp ho ▸ .inr ⟨o, hop, rfl⟩) (fun f hm hw => .inl ?_) (fun f hm hr => h.live hm ?_)
    (fun ho hp' => by rw [← Option.some_inj.mp ho] at hp'; cases hp') (fun {o' f} ho hm hold => ?_)
    (fun {o' e} ho _ hl => ?_)
  · rw [hop, Option.some_inj] at hop'
    have hbegun := hs { o with phase := .closed } rfl (hop' ▸ hn)
    cases hbegun
  · split at hw
    case isTrue => exact absurd rfl hw
    case isFalse hf =>
      refine (h.logged hm hw).resolve_right fun ho => ?_
      obtain ⟨o', hop', _, hold, _⟩ := ho
      rw [hop, Option.some_inj] at hop'
      exact hf (hop' ▸ hold.symm)
  · split at hr <;> exact hr
  · rw [← Option.some_inj.mp ho] at hold
    have hret := h.retired hop hm hold
    split <;> exact hret
  · rw [← Option.some_inj.mp ho] at hl ⊢
    have hfresh : o.fresh = some e.id := h.edited hop (by simp [hp]) hl
    exact hfresh

theorem wipe (h : s.Owned cfDir) (hb : ∃ o ∈ s.op, o.phase = .closed)
    (hv : ∀ o ∈ s.op, o.fresh ≠ none → s.Vacant (cfDir o.name)) : (s.wipe cfDir).Owned cfDir := by
  obtain ⟨o, hop, hp⟩ := hb
  have hop : s.op = some o := hop
  simp only [State.wipe, hop]
  split
  case h_1 id e hid hl =>
    have he := h.edited hop (by simp [hp]) hl
    rw [hid, Option.some_inj] at he
    subst he
    refine h.createFamily hl (hv o hop (by simp [hid])) fun o' hop' => ?_
    rw [hop, Option.some_inj] at hop'
    exact hop' ▸ ⟨rfl, hp⟩
  case h_2 hne =>
    -- The name was dropped, so no family in the catalog waits for its directory.
    have hlost : s.catalog.lookup o.name = none := by
      by_contra hl
      obtain ⟨e, hl⟩ := Option.ne_none_iff_exists'.mp hl
      exact hne _ _ (h.edited hop (by simp [hp]) hl) hl
    have hdone : { s.modifyFamily 0 id with op := none }.Owned cfDir := by
      refine h.setOp (fun f => ⟨rfl, rfl, rfl, rfl⟩) (fun {n e} hl _ o' hop' hn => ?_) (fun ho => by cases ho)
        (fun f hm hw => .inl ?_) (fun f hm hr => h.live hm (by simpa using hr)) (fun ho => by cases ho)
        (fun ho => by cases ho) (fun ho => by cases ho)
      · rw [hop, Option.some_inj] at hop'
        rw [← hn, ← hop', hlost] at hl
        cases hl
      · refine (h.logged hm (by simpa using hw)).resolve_right fun ho => ?_
        obtain ⟨o', hop', _, _, hp'⟩ := ho
        rw [hop, Option.some_inj] at hop'
        rw [← hop', hp] at hp'
        cases hp'
    simpa [modifyFamily] using hdone

theorem create (h : s.Owned cfDir) (hop : s.op = none) (hn : s.catalog.lookup name = none)
    (hv : s.Vacant (cfDir name)) (hd : ∀ n ∈ s.catalog.keys, cfDir n ≠ cfDir name) :
    (s.create unified cfId cfDir name draw).Owned cfDir := by
  set id := s.chooseUnifiedId unified cfId name [] draw with hid
  have hren := h.rename (o := ⟨name, s.nextInc, some id, .closed⟩) (c := s.catalog.insert name ⟨s.nextInc, id, []⟩)
    (by simp) (fun n hn => AList.lookup_insert_ne hn) (fun e hl => ?_) (fun o ho => ?_) (fun f _ hf hc => ?_)
    (fun f hm hf => ?_) (fun n hh hdir => ?_)
  · exact (hren.createFamily (AList.lookup_insert _) hv fun o ho => Option.some_inj.mp ho ▸ ⟨rfl, rfl⟩).same
      rfl rfl rfl hop rfl
  · rw [AList.lookup_insert, Option.some_inj] at hl
    exact ⟨hl ▸ rfl, hl ▸ rfl, hl ▸ rfl⟩
  · rw [hop] at ho
    cases ho
  · obtain ⟨e, hl, _⟩ := hc
    rw [hf, hn] at hl
    cases hl
  · exact absurd hf (h.bounds hm).ne
  · cases hh
    case inl hh => exact absurd hdir (hd n (AList.mem_keys.mpr (AList.lookup_isSome.mp (Option.isSome_iff_exists.mpr hh))))
    case inr hh =>
      rw [hop] at hh
      cases hh.choose_spec.left

omit [DecidableEq D] in
theorem publish (h : s.Owned cfDir) (hr : s.Routed) : s.publish.Owned cfDir := by
  rw [State.publish]
  split
  case h_2 => exact h
  case h_1 imm imms himms =>
    have hknown {r} (hmem : r ∈ imm.items) : s.Known r :=
      .mem (mem_flatMap.mpr ⟨imm, by simp [mems, himms], hmem⟩)
    have hslice {id i r} (hc : s.Carries id i) (hmem : r ∈ slice imm.items id) : r.inc = i := by
      obtain ⟨hmem, hid⟩ := mem_filter.mp hmem
      exact (hr.known (hknown hmem) (of_decide_eq_true hid ▸ hc)).symm
    refine h.update rfl (fun f hm => ?_) (fun f hm => ?_) (t := fun _ e => if s.families.any (fun f =>
      s.takesSlice f && f.inc = e.inc) then { e with tables := slice imm.items e.id ++ e.tables } else e)
      (fun n => Map.lookup_mapValues _ n) (fun {n e} hl => ?_) rfl rfl h.logs
    · split
      case isFalse => exact .refl (h.stored hm)
      refine ⟨rfl, rfl, rfl, rfl, fun r hmem => ?_⟩
      have hold := h.stored hm r
      have hnew := hslice (r := r) (.family hm rfl rfl)
      simp only [Family.stored, mem_append] at hmem hold
      grind
    · split <;> exact .inl
    · split
      case isFalse => exact ⟨rfl, rfl, h.tables hl⟩
      refine ⟨rfl, rfl, fun r hmem => ?_⟩
      cases mem_append.mp hmem
      case inl hmem => exact hslice (.entry hl rfl rfl) hmem
      case inr hmem => exact h.tables hl r hmem

theorem mem_survivingLogs {logs : List (Log K V)} {P : Record K V → Prop} (h : ∀ l ∈ logs, ∀ r ∈ l.items, P r) :
    ∀ l ∈ survivingLogs keep logs, ∀ r ∈ l.items, P r := by
  intro l hl r hr
  obtain ⟨l', hl', he⟩ := mem_map.mp hl
  subst he
  exact h l' hl' r (mem_of_mem_filter hr)

theorem mem_families_crash [DecidableEq I] (h : f ∈ (s.crash cfDir keep).families) :
    ∃ n e, s.catalog.lookup n = some e ∧ f = load n e (survivingLogs keep (s.dirs (cfDir n))) := by
  obtain ⟨e, he, hf⟩ := mem_map.mp h
  exact ⟨e.1, e.2, AList.mem_lookup_iff.mpr he, hf.symm⟩

theorem crash [DecidableEq I] (h : s.Owned cfDir) {keep : Record K V → Bool}
    (hv : ∀ o ∈ s.op, o.fresh ≠ none → o.phase ≠ .begun → s.Vacant (cfDir o.name)) :
    (s.crash cfDir keep).Owned cfDir := by
  have hlogs {n e} (hl : s.catalog.lookup n = some e) :
      ∀ l ∈ survivingLogs keep (s.dirs (cfDir n)), ∀ r ∈ l.items, r.inc = e.inc := by
    refine mem_survivingLogs ?_
    by_cases hs : s.Settled n
    case pos => exact h.logs hl hs
    simp only [Settled, not_forall] at hs
    obtain ⟨o, hop, hn, hp⟩ := hs
    subst hn
    exact (hv o hop (by simp [h.edited hop hp hl]) hp).logs
  have hcur {n e f} (hl : s.catalog.lookup n = some e)
      (hf : f = load n e (survivingLogs keep (s.dirs (cfDir n)))) : (s.crash cfDir keep).Current f :=
    ⟨e, hf ▸ hl, hf ▸ rfl⟩
  constructor
  case stored =>
    intro f hm r hr
    obtain ⟨n, e, hl, hf⟩ := mem_families_crash hm
    subst hf
    simp only [Family.stored, load, flatMap_nil, append_nil, mem_append] at hr
    cases hr
    case inr hr => exact h.tables hl r hr
    case inl hr =>
      obtain ⟨l, hlm, hr⟩ := mem_flatMap.mp hr
      exact hlogs hl l hlm r hr
  case tables => exact h.tables
  case logs =>
    intro n e hl _
    dsimp only [State.crash]
    split
    case isTrue => exact logs_openLog (hlogs hl)
    case isFalse => exact hlogs hl
  case logged =>
    intro f hm _
    obtain ⟨n, e, hl, hf⟩ := mem_families_crash hm
    exact .inl (hcur hl hf)
  case live =>
    intro f hm _
    obtain ⟨n, e, hl, hf⟩ := mem_families_crash hm
    exact hcur hl hf
  case named =>
    intro n e f hl hm hi
    obtain ⟨n', e', hl', hf⟩ := mem_families_crash hm
    subst hf
    exact h.distinct hl' hl hi
  case present =>
    intro n e hl
    refine .inl ⟨_, mem_map_of_mem (AList.mem_lookup_iff.mp hl), rfl, rfl⟩
  case begun => intro o hop; cases hop
  case retired => intro o f' hop; cases hop
  case edited => intro o e' hop; cases hop
  case distinct => exact h.distinct
  case apart =>
    intro n n' hh hh'
    have hhouse {n} (hn : (s.crash cfDir keep).Housed n) : s.Housed n := by
      refine .inl (hn.resolve_right fun ho => ?_)
      cases ho.choose_spec.left
    exact h.apart (hhouse hh) (hhouse hh')
  case bound => exact h.bound
  case bounds =>
    intro f hm
    obtain ⟨n, e, hl, hf⟩ := mem_families_crash hm
    subst hf
    exact h.bound hl

end Owned

end OndaDb.Incarnation.State

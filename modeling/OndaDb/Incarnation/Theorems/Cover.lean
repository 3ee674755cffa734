import OndaDb.Incarnation.Theorems.Shared
import OndaDb.Prepared.Theorems.Gens

namespace OndaDb.Incarnation.State

open List

open Prepared (WalGenState)

variable {I N D K V : Type} {s s' : State I N D K V} {cfDir : N → D}

def Released (s : State I N D K V) (gen : Nat) : Prop :=
  gen ∈ s.gens.flushed ∨ ∃ u ∈ s.unlinking, gen ∈ u.1

structure Backed (s : State I N D K V) : Prop where
  below : ∀ file ∈ s.files, file.gen ≤ s.gen
  gens : ∀ m ∈ s.mems, ∀ g ∈ m.gens, g ≤ s.gen
  opened : s.gen ∈ s.active.gens
  sealable : s.active.published = false
  current : ∀ file ∈ s.files, file.gen = s.gen → ∀ r ∈ file.data, r ∈ s.active.items
  covered : ¬ s.poisoned → ∀ file ∈ s.files, s.floor ≤ file.gen →
    (∃ m ∈ s.mems, file.gen ∈ m.gens ∧ ∀ r ∈ file.data, r ∈ m.items) ∨ s.Released file.gen
  published : ∀ m ∈ s.imms, m.published → ∀ file ∈ s.files, file.gen ∈ m.gens → s.Released file.gen

namespace Backed

theorem to_covered (h : s.Backed) (hp : ¬ s.poisoned) : s.Covered := by
  intro file hf hle r hr
  cases h.covered hp file hf hle
  case inr hr => exact .inr hr
  case inl hm =>
    obtain ⟨m, hm, _, hi⟩ := hm
    exact .inl (mem_flatMap.mpr ⟨m, hm, hi r hr⟩)

theorem start : (start : State I N D K V).Backed where
  below := by simp [State.start]
  gens := by simp [State.start, mems]
  opened := by simp [State.start]
  sealable := rfl
  current := by simp [State.start, File.data]
  covered _ := by simp [State.start, mems, File.data]
  published := by simp [State.start]

theorem active_mem : s.active ∈ s.mems :=
  mem_append_right _ (mem_singleton_self _)

theorem append (h : s.Backed) (hi : ∀ r ∈ frame.dataItems, r ∈ items) :
    ((s.append frame).addActive items).Backed := by
  have hfiles {file} (hf : file ∈ (s.append frame).files) :
      ∃ file' ∈ s.files, file'.gen = file.gen ∧
        ∀ r ∈ file.data, r ∈ file'.data ∨ file.gen = s.gen ∧ r ∈ items := by
    obtain ⟨file', hf', he⟩ := mem_map.mp hf
    refine ⟨file', hf', ?_, fun r hr => ?_⟩
    · rw [← he]; split <;> rfl
    · subst he
      split at hr
      case isFalse => exact .inl hr
      case isTrue hg =>
        simp only [File.data, flatMap_append, mem_append, flatMap_singleton] at hr
        refine hr.imp id fun hr => ⟨?_, hi r hr⟩
        simp [hg]
  have hactive {r} (hr : r ∈ s.active.items) : r ∈ items ++ s.active.items := mem_append_right _ hr
  refine ⟨fun file hf => ?_, fun m hm g hg => ?_, h.opened, h.sealable, fun file hf hg r hr => ?_,
    fun hp file hf hle => ?_, fun m hm hpub file hf hg => ?_⟩
  · obtain ⟨file', hf', he, _⟩ := hfiles hf
    exact he ▸ h.below file' hf'
  · cases mem_append.mp hm
    case inl hm => exact h.gens m (mem_append_left _ hm) g hg
    case inr hm =>
      rw [mem_singleton.mp hm] at hg
      exact h.gens _ active_mem g hg
  · obtain ⟨file', hf', he, hd⟩ := hfiles hf
    cases hd r hr
    case inl hr => exact hactive (h.current file' hf' (he.trans hg) r hr)
    case inr hr => exact mem_append_left _ hr.right
  · obtain ⟨file', hf', he, hd⟩ := hfiles hf
    by_cases hg : file.gen = s.gen
    case pos =>
      refine .inl ⟨_, active_mem, ?_, fun r hr => ?_⟩
      · exact hg ▸ h.opened
      · cases hd r hr
        case inl hr => exact hactive (h.current file' hf' (he.trans hg) r hr)
        case inr hr => exact mem_append_left _ hr.right
    have hd' {r} (hr : r ∈ file.data) : r ∈ file'.data :=
      (hd r hr).resolve_right fun hr => hg hr.left
    cases h.covered hp file' hf' (he ▸ hle)
    case inr hr => exact .inr (he ▸ hr)
    case inl hm =>
      obtain ⟨m, hm, hgen, hit⟩ := hm
      cases mem_append.mp hm
      case inl hm => exact .inl ⟨m, mem_append_left _ hm, he ▸ hgen, fun r hr => hit r (hd' hr)⟩
      case inr hm =>
        have hm := mem_singleton.mp hm
        subst hm
        exact .inl ⟨_, active_mem, he ▸ hgen, fun r hr => hactive (hit r (hd' hr))⟩
  · obtain ⟨file', hf', he, _⟩ := hfiles hf
    exact he ▸ h.published m hm hpub file' hf' (he ▸ hg)

theorem rotate (h : s.Backed) : s.rotate.Backed := by
  have hfiles {file} (hf : file ∈ s.rotate.files) :
      file ∈ s.files ∨ file = ⟨s.gen + 1, []⟩ := by
    simpa [State.rotate] using hf
  refine ⟨fun file hf => ?_, fun m hm g hg => ?_, mem_singleton_self _, rfl, fun file hf hg r hr => ?_,
    fun hp file hf hle => ?_, fun m hm hpub file hf hg => ?_⟩
  · cases hfiles hf
    case inl hf => exact (h.below file hf).trans (Nat.le_succ _)
    case inr hf => exact hf ▸ le_rfl
  · cases mem_append.mp hm
    case inl hm => exact (h.gens m hm g hg).trans (Nat.le_succ _)
    case inr hm =>
      rw [mem_singleton.mp hm] at hg
      exact (mem_singleton.mp hg).le
  · cases hfiles hf
    case inl hf =>
      have hle := h.below file hf
      have hg : file.gen = s.gen + 1 := hg
      omega
    case inr hf => simp [hf, File.data] at hr
  · cases hfiles hf
    case inr hf => exact .inl ⟨_, active_mem, hf ▸ mem_singleton_self _, by simp [hf, File.data]⟩
    case inl hf =>
      refine (h.covered hp file hf hle).imp (fun hm => ?_) id
      obtain ⟨m, hm, hi⟩ := hm
      exact ⟨m, mem_append_left _ hm, hi⟩
  · cases mem_append.mp hm
    case inr hm =>
      have hm := mem_singleton.mp hm
      rw [hm, h.sealable] at hpub
      exact absurd hpub Bool.false_ne_true
    case inl hm =>
      cases hfiles hf
      case inl hf => exact h.published m hm hpub file hf hg
      case inr hf =>
        have hle := h.gens m (mem_append_left _ hm) file.gen hg
        rw [hf] at hle
        exact absurd hle (Nat.not_succ_le_self _)

theorem publish [DecidableEq N] (h : s.Backed) : s.publish.Backed := by
  rw [State.publish]
  split
  case h_2 => exact h
  case h_1 imm imms himms =>
    have hrel {s' : State I N D K V} {g : Nat} (hg : s'.gens = imm.gens.foldl WalGenState.markFlushed s.gens)
        (hu : s'.unlinking = s.unlinking) (hr : g ∈ imm.gens ∨ s.Released g) : s'.Released g := by
      rw [Released, hg, hu, WalGenState.mem_foldl_markFlushed]
      cases hr
      case inl hr => exact .inl (.inl hr)
      case inr hr => exact hr.imp .inr id
    have hmems {m} (hm : m ∈ s.mems) : m = imm ∨ m ∈ imms ++ [s.active] := by
      simpa [mems, himms] using hm
    refine ⟨h.below, fun m hm g hg => ?_, h.opened, h.sealable, h.current, fun hp file hf hle => ?_,
      fun m hm hpub file hf hg => ?_⟩
    · cases mem_cons.mp hm
      case inl hm => exact h.gens imm (by simp [mems, himms]) g (by rwa [hm] at hg)
      case inr hm =>
        refine h.gens m ?_ g hg
        rw [mems, himms]
        exact mem_cons_of_mem _ hm
    · have hfloor : s.floor ≤ file.gen := by
        refine le_trans ?_ hle
        dsimp only
        split
        case isTrue => exact le_max_left _ _
        case isFalse => exact le_rfl
      cases h.covered hp file hf hfloor
      case inr hr => exact .inr (hrel rfl rfl (.inr hr))
      case inl hm =>
        obtain ⟨m, hm, hg, hi⟩ := hm
        cases hmems hm
        case inl hm => exact .inr (hrel rfl rfl (.inl (hm ▸ hg)))
        case inr hm => exact .inl ⟨m, mem_cons_of_mem _ hm, hg, hi⟩
    · cases mem_cons.mp hm
      case inl hm => exact hrel rfl rfl (.inl (by rwa [hm] at hg))
      case inr hm =>
        refine hrel rfl rfl (.inr (h.published m ?_ hpub file hf hg))
        rw [himms]
        exact mem_cons_of_mem _ hm

theorem mem_mems_of_tail (hm : m ∈ s.imms.tail ++ [s.active]) : m ∈ s.mems :=
  (mem_append.mp hm).elim (fun hm => mem_append_left _ (mem_of_mem_tail hm))
    (mem_append_right _)

theorem removeImm (h : s.Backed) (hp : ∃ m ∈ s.imms.head?, m.published) :
    { s with imms := s.imms.tail }.Backed := by
  obtain ⟨imm, himm, hpub⟩ := hp
  have hcons : s.imms = imm :: s.imms.tail := (cons_head?_tail himm).symm
  refine ⟨h.below, fun m hm => h.gens m (mem_mems_of_tail hm), h.opened, h.sealable, h.current,
    fun hp file hf hle => ?_, fun m hm => h.published m (mem_of_mem_tail hm)⟩
  cases h.covered hp file hf hle
  case inr hr => exact .inr hr
  case inl hm =>
    obtain ⟨m, hm, hg, hi⟩ := hm
    have hm' : m = imm ∨ m ∈ s.imms.tail ++ [s.active] := by
      rwa [mems, hcons, cons_append, mem_cons] at hm
    cases hm'
    case inr hm => exact .inl ⟨m, hm, hg, hi⟩
    case inl hm =>
      subst hm
      exact .inr (h.published m (hcons ▸ mem_cons_self ..) hpub file hf hg)

theorem flushFail (h : s.Backed) : { s with imms := s.imms.tail, poisoned := true }.Backed where
  __ := h
  gens m hm    := h.gens m (mem_mems_of_tail hm)
  covered hp   := absurd rfl hp
  published m hm := h.published m (mem_of_mem_tail hm)

theorem released (h : s.Backed) (hf : s'.files ⊆ s.files) (hfl : s'.floor = s.floor) (hg : s'.gen = s.gen)
    (ha : s'.active = s.active) (hi : s'.imms = s.imms) (hp : s'.poisoned = s.poisoned)
    (hr : ∀ file ∈ s'.files, s.Released file.gen → s'.Released file.gen) : s'.Backed := by
  have hm : s'.mems = s.mems := by rw [mems, mems, ha, hi]
  refine ⟨fun file hf' => ?_, ?_, ?_, ?_, fun file hf' => ?_, fun hp' file hf' hle => ?_,
    fun m hm hpub file hf' hg => ?_⟩
  · exact hg ▸ h.below file (hf hf')
  · rw [hm, hg]; exact h.gens
  · rw [hg, ha]; exact h.opened
  · rw [ha]; exact h.sealable
  · rw [hg, ha]; exact h.current file (hf hf')
  · rw [hm]
    exact (h.covered (hp ▸ hp') file (hf hf') (hfl ▸ hle)).imp id (hr file hf')
  · exact hr file hf' (h.published m (hi ▸ hm) hpub file (hf hf') hg)

theorem same (h : s.Backed) (hf : s'.files = s.files) (hfl : s'.floor = s.floor) (hg : s'.gen = s.gen)
    (ha : s'.active = s.active) (hi : s'.imms = s.imms) (hp : s'.poisoned = s.poisoned)
    (hgens : s'.gens.flushed = s.gens.flushed) (hu : s'.unlinking = s.unlinking) : s'.Backed := by
  refine h.released (hf ▸ List.Subset.refl _) hfl hg ha hi hp fun file _ hr => ?_
  rw [Released, hgens, hu]
  exact hr

section Unchanged

variable [DecidableEq N]

theorem retire (h : s.Backed) : (s.retire name fresh).Backed := by
  rw [State.retire]
  split
  case h_1 => exact h.same rfl rfl rfl rfl rfl rfl rfl rfl
  case h_2 => exact h

omit [DecidableEq N] in
theorem refuse (h : s.Backed) : s.refuse.Backed := by
  rw [State.refuse]
  split
  case h_1 => exact h.same rfl rfl rfl rfl rfl rfl rfl rfl
  case h_2 => exact h

theorem edit (h : s.Backed) : s.edit.Backed := by
  rw [State.edit]
  split
  case h_1 => exact h.same rfl rfl rfl rfl rfl rfl rfl rfl
  case h_2 => exact h

omit [DecidableEq N] in
theorem close (h : s.Backed) : s.close.Backed := by
  rw [State.close]
  split
  case h_1 => exact h.same rfl rfl rfl rfl rfl rfl rfl rfl
  case h_2 => exact h

theorem publishOwn (h : s.Backed) : (s.publishOwn inc).Backed := by
  rw [State.publishOwn]
  split
  case h_2 => exact h
  case h_1 =>
    split
    case h_1 => exact h.same rfl rfl rfl rfl rfl rfl rfl rfl
    case h_2 => exact h

variable [DecidableEq D]

omit [DecidableEq N] in
theorem unlinkOwn (h : s.Backed) {gen : Nat} : (s.unlinkOwn cfDir gen).Backed := by
  rw [State.unlinkOwn]
  split
  case h_1 => exact h.same rfl rfl rfl rfl rfl rfl rfl rfl
  case h_2 => exact h

theorem wipe (h : s.Backed) : (s.wipe cfDir).Backed := by
  rw [State.wipe]
  split
  case h_2 => exact h
  case h_1 => split <;> exact h.same rfl rfl rfl rfl rfl rfl rfl rfl

omit [DecidableEq N] in
theorem rotateOwn (h : s.Backed) : (s.rotateOwn cfDir inc).Backed := by
  rw [State.rotateOwn]
  split
  case h_2 => exact h
  case h_1 =>
    split
    case h_1 => exact h.same rfl rfl rfl rfl rfl rfl rfl rfl
    case h_2 => exact h

omit [DecidableEq N] in
theorem removeImmOwn (h : s.Backed) : (s.removeImmOwn cfDir inc).Backed := by
  rw [State.removeImmOwn]
  split
  case h_2 => exact h
  case h_1 =>
    split
    case h_1 => exact h.same rfl rfl rfl rfl rfl rfl rfl rfl
    case h_2 => exact h

end Unchanged

theorem commit [DecidableEq D] (h : s.Backed) :
    (s.commit true cfDir inc writes).Backed := by
  rw [State.commit]
  split
  case h_2 => exact h
  case h_1 => exact h.append fun r hr => hr

theorem prepare (h : s.Backed) {id : I} : (s.prepare id writes).Backed := by
  have happ : ((s.append (.prepare id (s.prepareItems writes))).addActive []).Backed := h.append fun r hr => hr
  exact happ.same rfl rfl rfl rfl rfl rfl rfl rfl

theorem decide [DecidableEq I] (h : s.Backed) {id : I} {commit : Bool} : (s.decide id commit).Backed := by
  rw [State.decide]
  split
  case h_2 => exact h
  case h_1 p _ =>
    have happ {items : List (Record K V)} : ((s.append (.decision id commit)).addActive items).Backed :=
      h.append fun r hr => absurd hr not_mem_nil
    cases commit
    case true => exact happ.same rfl rfl rfl rfl rfl rfl rfl rfl
    case false => exact (@happ []).same rfl rfl rfl rfl rfl rfl rfl rfl

theorem sweep (h : s.Backed) : s.sweep.Backed := by
  refine h.released (List.Subset.refl _) rfl rfl rfl rfl rfl fun file _ hr => ?_
  have hs := WalGenState.sweep_swept s.gens
  cases hr
  case inr hr =>
    obtain ⟨u, hu, hg⟩ := hr
    exact .inr ⟨u, mem_append_left _ hu, hg⟩
  case inl hr =>
    by_cases hl : file.gen ∈ s.gens.sweep.1
    case pos => exact .inr ⟨_, mem_append_right _ (mem_singleton_self _), hl⟩
    case neg => exact .inl ((hs.flushed _).mpr ⟨hr, hl⟩)

theorem unlink [DecidableEq I] (h : s.Backed) : (s.unlink i).Backed := by
  rw [State.unlink]
  split
  case h_3 => exact h
  case h_1 g gs ids hi =>
    refine h.released (filter_subset_self _) rfl rfl rfl rfl rfl fun file hf hr => hr.imp id fun hr => ?_
    have hne : file.gen ≠ g := by simpa using (mem_filter.mp hf).right
    obtain ⟨u, hu, hg⟩ := hr
    obtain ⟨j, hj⟩ := getElem?_of_mem hu
    by_cases hij : i = j
    case pos =>
      rw [← hij, hi, Option.some_inj] at hj
      have hlt := (List.getElem?_eq_some_iff.mp hi).choose
      refine ⟨(gs, ids), mem_set hlt _, ?_⟩
      rw [← hj] at hg
      exact (mem_cons.mp hg).resolve_left hne
    case neg => exact ⟨u, mem_of_getElem? ((getElem?_set_ne hij).trans hj), hg⟩
  case h_2 ids hi =>
    refine h.released (List.Subset.refl _) rfl rfl rfl rfl rfl fun file _ hr => hr.imp id fun hr => ?_
    obtain ⟨u, hu, hg⟩ := hr
    refine ⟨u, ?_, hg⟩
    obtain ⟨j, hj⟩ := getElem?_of_mem hu
    refine mem_eraseIdx_iff_getElem?.mpr ⟨j, ?_, hj⟩
    rintro rfl
    rw [hi, Option.some_inj] at hj
    rw [← hj] at hg
    cases hg

theorem lt_nextGen {gens : List Nat} (h : g ∈ gens) : g < nextGen gens := by
  cases hmax : gens.max?
  case none =>
    rw [max?_eq_none_iff] at hmax
    exact absurd (hmax ▸ h) not_mem_nil
  case some m =>
    have hle := (max?_eq_some_iff.mp hmax).right g h
    simp only [nextGen, hmax, Option.map_some, Option.getD_some]
    omega

theorem crash [DecidableEq I] [DecidableEq N] [DecidableEq D] {keep : Record K V → Bool} :
    (s.crash cfDir keep).Backed := by
  set files := survivors keep s.files with hfs
  set gen := max (nextGen (files.map File.gen)) s.floor with hgen
  have hlt {file} (hf : file ∈ files) : file.gen < gen :=
    (lt_nextGen (mem_map_of_mem hf)).trans_le (le_max_left _ _)
  have hfiles {file} (hf : file ∈ (s.crash cfDir keep).files) : file ∈ files ∨ file = ⟨gen, []⟩ := by
    simpa [State.crash, hfs, hgen] using hf
  have hgens : ∀ g ∈ files.map File.gen ++ [gen], g ≤ gen := by
    intro g hg
    cases mem_append.mp hg
    case inl hg =>
      obtain ⟨file, hf, he⟩ := mem_map.mp hg
      exact he ▸ (hlt hf).le
    case inr hg => exact (mem_singleton.mp hg).le
  refine ⟨fun file hf => ?_, fun m hm => ?_, mem_append_right _ (mem_singleton_self _), rfl,
    fun file hf hg r hr => ?_, fun hp file hf hle => .inl ⟨_, active_mem, ?_, fun r hr => ?_⟩,
    fun m hm => by cases hm⟩
  · cases hfiles hf
    case inl hf => exact (hlt hf).le
    case inr hf => exact hf ▸ le_rfl
  · rw [mem_singleton.mp hm]
    exact hgens
  · cases hfiles hf
    case inl hf => exact absurd hg (hlt hf).ne
    case inr hf => simp [hf, File.data] at hr
  · cases hfiles hf
    case inl hf => exact mem_append_left _ (mem_map_of_mem hf)
    case inr hf => exact hf ▸ mem_append_right _ (mem_singleton_self _)
  · cases hfiles hf
    case inr hf => simp [hf, File.data] at hr
    case inl hf =>
      have hle : s.floor ≤ file.gen := hle
      refine mem_append_left _ (mem_flatMap.mpr ⟨file, mem_filter.mpr ⟨hf, ?_⟩, hr⟩)
      exact decide_eq_true hle

end Backed

end OndaDb.Incarnation.State

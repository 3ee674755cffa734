import OndaDb.Checkpoint.Basic
import OndaDb.Publish.Theorems.Visible
import Mathlib.Algebra.Order.BigOperators.Group.List
import Mathlib.Algebra.Order.Group.Nat

-- What holds while a checkpoint is under way: what was committed before it began goes to the tables, and what was
-- committed since stays in the memtables.
namespace OndaDb.Checkpoint

open List

namespace Mem

variable {F E : Type} {m m' : Mem F E}

theorem mem_sealedRecords : r ∈ m.sealedRecords ↔ ∃ i ∈ m.imm, r ∈ i.records := by
  simp only [sealedRecords, mem_flatMap, mem_reverse]

theorem sealedRecords_eq_nil (h : m.imm = []) : m.sealedRecords = [] := by
  rw [sealedRecords, h]
  rfl

@[simp]
theorem active_rotate : (m.rotate status).active = [] := by
  unfold rotate
  split
  case h_1 h => exact h
  case h_2 => rfl

theorem rotate_of_active_eq_nil (h : m.active = []) : m.rotate status = m := by
  rw [rotate, h]

theorem sealedRecords_rotate : (m.rotate status).sealedRecords = m.records := by
  unfold rotate
  split
  case h_1 h => rw [records, h, nil_append]
  case h_2 => simp only [sealedRecords, records, reverse_append, reverse_singleton, flatMap_append,
    flatMap_singleton]

theorem records_rotate : (m.rotate status).records = m.records := by
  rw [records, active_rotate, nil_append, sealedRecords_rotate]

structure Kept (m m' : Mem F E) : Prop where
  active : m'.active = m.active
  records : ∀ r ∈ m'.sealedRecords, r ∈ m.sealedRecords
  imm : m.imm = [] → m'.imm = []

theorem Kept.setStatus (m : Mem F E) (i : Nat) (status : Status) : Kept m (m.setStatus i status) where
  active := rfl
  records := by
    intro r hr
    obtain ⟨x, hx, hr⟩ := mem_sealedRecords.mp hr
    obtain ⟨j, hj, rfl⟩ := mem_iff_getElem.mp hx
    have hlt : j < m.imm.length := by simpa [Mem.setStatus] using hj
    simp only [Mem.setStatus, getElem_modify] at hr
    refine mem_sealedRecords.mpr ⟨_, getElem_mem hlt, ?_⟩
    split at hr <;> exact hr
  imm := by
    intro h
    simp [Mem.setStatus, h]

theorem Kept.oldest (h : m.imm = i :: rest) : Kept m { m with imm := rest } where
  active := rfl
  records := by
    intro r hr
    obtain ⟨x, hx, hr⟩ := mem_sealedRecords.mp hr
    exact mem_sealedRecords.mpr ⟨x, h ▸ mem_cons_of_mem _ hx, hr⟩
  imm := fun hn => absurd (h.symm.trans hn) (cons_ne_nil _ _)

theorem imm_eq_nil (hp : m.pending = 0) (hq : ∀ i ∈ m.imm, i.status = .queued) : m.imm = [] := by
  rw [pending, length_eq_zero_iff, filter_eq_nil_iff] at hp
  refine eq_nil_iff_forall_not_mem.mpr fun i hi => hp i hi ?_
  exact decide_eq_true (hq i hi)

end Mem

namespace State

variable {F E : Type} {s s' : State F E} {point : E → Bool}

def Rotated (s : State F E) (cut : Nat) (l : Lane F) : Prop :=
  ∀ r ∈ (s.mem l).active, cut < r.seq

def Drained (s : State F E) (cut : Nat) (l : Lane F) : Prop :=
  s.Rotated cut l ∧ (s.mem l).imm = []

structure Running [DecidableEq F] (point : E → Bool) (s : State F E) (c : Call F) : Prop where
  visible : c.visible ≤ s.visibleSeq
  next : c.visible < s.sequences.nextSeq
  below : ∀ l, ∀ r ∈ (s.mem l).sealedRecords, r.seq ≤ c.visible
  tables : ∀ cf, ∀ r ∈ s.tables cf, r.seq ≤ c.visible
  late : ∀ c' ∈ s.reserved, ∀ r ∈ c'.records, c.visible < r.seq
  own : s.readOnly = false → ∀ cf ∈ s.families, cf ∈ c.todo ∨ s.Drained c.visible (.own cf)
  shared : s.readOnly = false → s.unified → c.todo = s.families ∨ s.Drained c.visible .shared
  turned : c.phase = .shared ∨ c.phase = .wait → ∀ cf ∈ c.todo.head?, s.Rotated c.visible (.own cf)
  both : c.phase = .wait → s.unified → s.Rotated c.visible .shared
  load : c.phase = .load → s.readOnly = false → c.todo = [] ∧ c.visible ≤ c.persisted
  fixed : s.readOnly → c.phase = .load ∧ (∀ l, (s.mem l).active = []) ∧ (∀ l, ∀ r ∈ (s.mem l).records, r.seq ≤ c.visible) ∧
    ∀ r ∈ s.families.flatMap s.contents, r.seq ≤ raised point c.persisted (s.families.flatMap s.contents)

structure Sound [DecidableEq F] (point : E → Bool) (s : State F E) : Prop where
  cursor : s.visibleSeq + 1 = s.sequences.publish.cursor
  entries : ∀ a b, s.sequences.publish.completed.lookup a = some b → a < b
  nonempty : ∀ c ∈ s.reserved ++ s.applied, c.start < c.stop
  mem : ∀ l, ∀ r ∈ (s.mem l).records, r.seq < s.sequences.nextSeq
  tables : ∀ cf, ∀ r ∈ s.tables cf, r.seq < s.sequences.nextSeq
  reserved : ∀ c ∈ s.reserved, ∀ r ∈ c.records, r.seq < s.sequences.nextSeq
  lane : s.unified = false → (s.mem .shared).records = [] ∧ ∀ c ∈ s.reserved, c.lane ≠ .shared
  frozen : s.readOnly → s.reserved ++ s.applied = []
  call : ∀ c ∈ s.call, s.Running point c

variable [DecidableEq F]

theorem mem_setMem {l l' : Lane F} {m : Mem F E} {P : Mem F E → Prop} (hm : l' = l → P m) (h : l' ≠ l → P (s.mem l')) :
    P ((s.setMem l m).mem l') := by
  by_cases hl : l' = l
  · subst hl
    simpa only [setMem, Function.update_self] using hm rfl
  · simpa only [setMem, Function.update_of_ne hl] using h hl

theorem Running.next_step (h : s.Running point c) (hr : s.readOnly = false) (hr' : s'.readOnly = s.readOnly)
    (hu : s'.unified = s.unified) (hf : s'.families = s.families) (hv : s.visibleSeq ≤ s'.visibleSeq)
    (hn : s.sequences.nextSeq ≤ s'.sequences.nextSeq)
    (hb : ∀ l, ∀ r ∈ (s'.mem l).sealedRecords, r.seq ≤ c.visible) (ht : ∀ cf, ∀ r ∈ s'.tables cf, r.seq ≤ c.visible)
    (hl : ∀ c' ∈ s'.reserved, ∀ r ∈ c'.records, c.visible < r.seq)
    (hrot : ∀ l, s.Rotated c.visible l → s'.Rotated c.visible l)
    (hd : ∀ l, s.Drained c.visible l → s'.Drained c.visible l) : s'.Running point c where
  visible := h.visible.trans hv
  next := h.next.trans_le hn
  below := hb
  tables := ht
  late := hl
  own := fun _ cf hcf => (h.own hr cf (hf ▸ hcf)).imp_right (hd _)
  shared := fun _ hun => hf ▸ (h.shared hr (hu ▸ hun)).imp_right (hd _)
  turned := fun hp cf hcf => hrot _ (h.turned hp cf hcf)
  both := fun hp hun => hrot _ (h.both hp (hu ▸ hun))
  load := fun hp _ => h.load hp hr
  fixed := fun hro => absurd (hr.symm.trans (hr' ▸ hro)) Bool.false_ne_true

theorem Running.rotate (h : s.Running point c) (hr : s.readOnly = false)
    (hold : ∀ r ∈ (s.mem l).active, r.seq ≤ c.visible) (status : Status) :
    (s.setMem l ((s.mem l).rotate status)).Running point c := by
  have hrot (l' : Lane F) (hrot : s.Rotated c.visible l') : (s.setMem l ((s.mem l).rotate status)).Rotated c.visible l' :=
    mem_setMem (P := fun m => ∀ r ∈ m.active, c.visible < r.seq) (fun _ => by simp) fun _ => hrot
  refine h.next_step hr rfl rfl rfl (Nat.le_refl _) (Nat.le_refl _) (fun l' => ?_) h.tables h.late hrot
    fun l' hd => ⟨hrot l' hd.left, ?_⟩
  · refine mem_setMem (P := fun m => ∀ r ∈ m.sealedRecords, r.seq ≤ c.visible) (fun _ r hin => ?_) fun _ => h.below l'
    rw [Mem.sealedRecords_rotate] at hin
    exact (mem_append.mp hin).elim (hold r) (h.below l r)
  · refine mem_setMem (P := fun m => m.imm = []) ?_ fun _ => hd.right
    rintro rfl
    -- Nothing that was drained is sealed again: what it holds is newer than the call.
    rw [Mem.rotate_of_active_eq_nil]
    · exact hd.right
    · refine eq_nil_iff_forall_not_mem.mpr fun r hin => ?_
      exact Nat.not_lt.mpr (hold r hin) (hd.left r hin)

theorem Running.turn (h : s.Running point c) (hr : s.readOnly = false)
    (hown : ∀ cf ∈ s.families, cf ∈ todo ∨ s.Drained c.visible (.own cf))
    (hshared : s.unified → todo = s.families ∨ s.Drained c.visible .shared)
    (hturned : phase = .shared ∨ phase = .wait → ∀ cf ∈ todo.head?, s.Rotated c.visible (.own cf))
    (hboth : phase = .wait → s.unified → s.Rotated c.visible .shared)
    (hload : phase = .load → todo = [] ∧ c.visible ≤ persisted) :
    s.Running point ⟨c.visible, todo, phase, persisted⟩ where
  __ := h
  own := fun _ => hown
  shared := fun _ => hshared
  turned := hturned
  both := hboth
  load := fun hp _ => hload hp
  fixed := fun hro => absurd (hr.symm.trans hro) Bool.false_ne_true

namespace Sound

theorem opened (h : s.Opened) : s.Sound point where
  cursor := by rw [h.counted]; rfl
  entries := by
    rw [h.counted]
    simp [Publish.Sequences.ofManifest]
  nonempty := by simp [h.reserved, h.applied]
  mem := by
    intro l r hr
    rw [Mem.records, Mem.sealedRecords_eq_nil (h.imm l), append_nil] at hr
    rw [h.counted]
    exact Nat.lt_succ_of_le (h.mem l r hr)
  tables := by
    intro cf r hr
    rw [h.counted]
    exact Nat.lt_succ_of_le (h.tables cf r hr)
  reserved := by simp [h.reserved]
  lane := by
    intro hu
    refine ⟨?_, by simp [h.reserved]⟩
    rw [Mem.records, h.shared hu, Mem.sealedRecords_eq_nil (h.imm _), append_nil]
  frozen := by simp [h.reserved, h.applied]
  call := by simp [h.call]

theorem writable (h : s.Sound point) (hc : c ∈ s.reserved ++ s.applied) : s.readOnly = false := by
  by_contra hr
  rw [h.frozen (Bool.not_eq_false _ ▸ hr)] at hc
  cases hc

theorem reserve (h : s.Sound point) (he : s.Enabled (.reserve items)) : (s.exec (.reserve items)).Sound point := by
  obtain ⟨hr, _, hne, _, _⟩ := he
  have hseq {r : Record F E} (hin : r ∈ items.mapIdx fun i item => ⟨item.1, s.sequences.nextSeq + i, item.2⟩) :
      s.sequences.nextSeq ≤ r.seq ∧ r.seq < s.sequences.nextSeq + items.length := by
    obtain ⟨i, hi, rfl⟩ := mem_mapIdx.mp hin
    exact ⟨Nat.le_add_right _ _, Nat.add_lt_add_left hi _⟩
  have hle : s.sequences.nextSeq ≤ s.sequences.nextSeq + items.length := Nat.le_add_right _ _
  refine ⟨h.cursor, h.entries, ?_, fun l r hin => (h.mem l r hin).trans_le hle,
    fun cf r hin => (h.tables cf r hin).trans_le hle, ?_, fun hu => ⟨(h.lane hu).left, ?_⟩,
    fun hro => absurd (hr.symm.trans hro) Bool.false_ne_true, fun c hc => ?_⟩
  · refine forall_mem_cons.mpr ⟨?_, h.nonempty⟩
    rw [Commit.stop, length_mapIdx]
    exact Nat.lt_add_of_pos_right (length_pos_iff.mpr hne)
  · exact forall_mem_cons.mpr ⟨fun r hin => (hseq hin).right, fun c hc r hin => (h.reserved c hc r hin).trans_le hle⟩
  · refine forall_mem_cons.mpr ⟨?_, (h.lane hu).right⟩
    cases items
    case nil => exact absurd rfl hne
    case cons i is =>
      rw [laneOf, if_neg (by rw [show s.unified = false from hu]; exact Bool.false_ne_true)]
      intro he
      cases he
  · have hrun := h.call c hc
    refine hrun.next_step hr rfl rfl rfl (Nat.le_refl _) hle hrun.below hrun.tables ?_ (fun _ => id) (fun _ => id)
    exact forall_mem_cons.mpr ⟨fun r hin => hrun.next.trans_le (hseq hin).left, hrun.late⟩

theorem nonempty_finish (h : s.Sound point) (hc : c ∈ s.reserved) :
    ∀ c' ∈ s.reserved.filter (·.start ≠ c.start) ++ c :: s.applied, c'.start < c'.stop := by
  intro c' hc'
  rcases mem_append.mp hc' with hc' | hc'
  · exact h.nonempty c' (mem_append_left _ (mem_filter.mp hc').left)
  rcases mem_cons.mp hc' with rfl | hc'
  · exact h.nonempty c' (mem_append_left _ hc)
  · exact h.nonempty c' (mem_append_right _ hc')

theorem apply (h : s.Sound point) (he : s.Enabled (.apply c)) : (s.exec (.apply c)).Sound point := by
  obtain ⟨hc, _⟩ := he
  have hsub {c' : Commit F E} (hc' : c' ∈ s.reserved.filter (·.start ≠ c.start)) : c' ∈ s.reserved :=
    (mem_filter.mp hc').left
  have hr : s.readOnly = false := h.writable (mem_append_left _ hc)
  constructor
  case cursor => exact h.cursor
  case entries => exact h.entries
  case nonempty => exact h.nonempty_finish hc
  case mem =>
    intro l
    refine mem_setMem (P := fun m => ∀ r ∈ m.records, r.seq < s.sequences.nextSeq) (fun _ r hin => ?_) fun _ => h.mem l
    rcases mem_append.mp hin with hin | hin
    · rcases mem_append.mp hin with hin | hin
      · exact h.reserved c hc r (mem_reverse.mp hin)
      · exact h.mem c.lane r (mem_append_left _ hin)
    · exact h.mem c.lane r (mem_append_right _ hin)
  case tables => exact h.tables
  case reserved => exact fun c' hc' => h.reserved c' (hsub hc')
  case lane =>
    intro hu
    obtain ⟨hrec, hlane⟩ := h.lane hu
    refine ⟨?_, fun c' hc' => hlane c' (hsub hc')⟩
    rw [show ((s.exec (.apply c)).mem .shared) = s.mem .shared from Function.update_of_ne (hlane c hc).symm ..]
    exact hrec
  case frozen => exact fun hro => absurd (hr.symm.trans hro) Bool.false_ne_true
  case call =>
    intro cl hcl
    have hrun := h.call cl hcl
    have hrot (l : Lane F) (hrot : s.Rotated cl.visible l) : (s.exec (.apply c)).Rotated cl.visible l := by
      refine mem_setMem (P := fun m => ∀ r ∈ m.active, cl.visible < r.seq) ?_ fun _ => hrot
      rintro rfl r hin
      rcases mem_append.mp hin with hin | hin
      · exact hrun.late c hc r (mem_reverse.mp hin)
      · exact hrot r hin
    refine hrun.next_step hr rfl rfl rfl (Nat.le_refl _) (Nat.le_refl _) ?_ hrun.tables
      (fun c' hc' => hrun.late c' (hsub hc')) hrot fun l hd => ⟨hrot l hd.left, ?_⟩
    · intro l
      refine mem_setMem (P := fun m => ∀ r ∈ m.sealedRecords, r.seq ≤ cl.visible) (fun _ => ?_) fun _ => hrun.below l
      exact hrun.below c.lane
    · refine mem_setMem (P := fun m => m.imm = []) ?_ fun _ => hd.right
      rintro rfl
      exact hd.right

theorem applyErr (h : s.Sound point) (he : s.Enabled (.applyErr c)) : (s.exec (.applyErr c)).Sound point := by
  have hc : c ∈ s.reserved := he
  have hsub {c' : Commit F E} (hc' : c' ∈ s.reserved.filter (·.start ≠ c.start)) : c' ∈ s.reserved :=
    (mem_filter.mp hc').left
  have hr : s.readOnly = false := h.writable (mem_append_left _ hc)
  constructor
  case cursor => exact h.cursor
  case entries => exact h.entries
  case nonempty => exact h.nonempty_finish hc
  case mem => exact h.mem
  case tables => exact h.tables
  case reserved => exact fun c' hc' => h.reserved c' (hsub hc')
  case lane => exact fun hu => ⟨(h.lane hu).left, fun c' hc' => (h.lane hu).right c' (hsub hc')⟩
  case frozen => exact fun hro => absurd (hr.symm.trans hro) Bool.false_ne_true
  case call =>
    intro cl hcl
    have hrun := h.call cl hcl
    exact hrun.next_step hr rfl rfl rfl (Nat.le_refl _) (Nat.le_refl _) hrun.below hrun.tables
      (fun c' hc' => hrun.late c' (hsub hc')) (fun _ => id) fun _ => id

theorem publish (h : s.Sound point) (he : s.Enabled (.publish c)) : (s.exec (.publish c)).Sound point := by
  have hc : c ∈ s.applied := he
  have hr : s.readOnly = false := h.writable (mem_append_right _ hc)
  have hentries (a b : Nat) (hab : (s.sequences.publish.completed.insert c.start c.stop).lookup a = some b) : a < b := by
    rw [Map.lookup_insert_eq] at hab
    split at hab
    case isTrue ha =>
      cases hab
      exact ha ▸ h.nonempty c (mem_append_right _ hc)
    case isFalse ha => exact h.entries a b hab
  have hcur := Publish.PublishState.cursor_le_advance (p := { s.sequences.publish with
    completed := s.sequences.publish.completed.insert c.start c.stop }) hentries
  have hcursor := h.cursor
  constructor
  case cursor =>
    simp only [exec, visibleSeq, Publish.Sequences.publishRange] at hcur hcursor ⊢
    omega
  case entries => exact fun a b hab => hentries a b (Publish.PublishState.lookup_of_lookup_advance hab)
  case nonempty =>
    intro c' hc'
    rcases mem_append.mp hc' with hc' | hc'
    · exact h.nonempty c' (mem_append_left _ hc')
    · exact h.nonempty c' (mem_append_right _ (mem_filter.mp hc').left)
  case mem => exact h.mem
  case tables => exact h.tables
  case reserved => exact h.reserved
  case lane => exact h.lane
  case frozen => exact fun hro => absurd (hr.symm.trans hro) Bool.false_ne_true
  case call =>
    intro cl hcl
    have hrun := h.call cl hcl
    refine hrun.next_step hr rfl rfl rfl ?_ (Nat.le_refl _) hrun.below hrun.tables hrun.late (fun _ => id) fun _ => id
    simp only [exec, visibleSeq, Publish.Sequences.publishRange] at hcur hcursor ⊢
    omega

theorem kept (h : s.Sound point) (hr : s.readOnly = false) {l : Lane F} {m : Mem F E} (hk : Mem.Kept (s.mem l) m)
    {tables : F → List (Record F E)}
    (ht : ∀ cf, ∀ r ∈ tables cf, r ∈ s.tables cf ∨ r ∈ (s.mem l).sealedRecords) (poisoned : Bool) :
    Sound point { s.setMem l m with tables, poisoned } := by
  have hmem {r : Record F E} (hin : r ∈ m.records) : r ∈ (s.mem l).records := by
    rcases mem_append.mp hin with hin | hin
    · exact mem_append_left _ (hk.active ▸ hin)
    · exact mem_append_right _ (hk.records r hin)
  constructor
  case cursor => exact h.cursor
  case entries => exact h.entries
  case nonempty => exact h.nonempty
  case mem =>
    intro l'
    refine mem_setMem (P := fun m => ∀ r ∈ m.records, r.seq < s.sequences.nextSeq) (fun _ r hin => ?_) fun _ => h.mem l'
    exact h.mem l r (hmem hin)
  case tables =>
    intro cf r hin
    rcases ht cf r hin with hin | hin
    · exact h.tables cf r hin
    · exact h.mem l r (mem_append_right _ hin)
  case reserved => exact h.reserved
  case lane =>
    intro hu
    refine ⟨?_, (h.lane hu).right⟩
    refine mem_setMem (P := fun m => m.records = []) ?_ fun _ => (h.lane hu).left
    rintro rfl
    refine eq_nil_iff_forall_not_mem.mpr fun r hin => ?_
    exact not_mem_nil ((h.lane hu).left ▸ hmem hin)
  case frozen => exact h.frozen
  case call =>
    intro c hc
    have hrun := h.call c hc
    have hrot (l' : Lane F) (hrot : s.Rotated c.visible l') : Rotated { s.setMem l m with tables, poisoned } c.visible l' := by
      refine mem_setMem (P := fun m => ∀ r ∈ m.active, c.visible < r.seq) ?_ fun _ => hrot
      rintro rfl
      exact hk.active ▸ hrot
    refine hrun.next_step hr rfl rfl rfl (Nat.le_refl _) (Nat.le_refl _) ?_ ?_ hrun.late hrot
      fun l' hd => ⟨hrot l' hd.left, ?_⟩
    · intro l'
      refine mem_setMem (P := fun m => ∀ r ∈ m.sealedRecords, r.seq ≤ c.visible) (fun _ r hin => ?_) fun _ => hrun.below l'
      exact hrun.below l r (hk.records r hin)
    · intro cf r hin
      rcases ht cf r hin with hin | hin
      · exact hrun.tables cf r hin
      · exact hrun.below l r hin
    · refine mem_setMem (P := fun m => m.imm = []) ?_ fun _ => hd.right
      rintro rfl
      exact hk.imm hd.right

theorem flush (h : s.Sound point) (he : s.Enabled (.flush l)) : (s.exec (.flush l)).Sound point := by
  simp only [exec]
  split
  case h_1 oldest rest himm =>
    refine h.kept he.left (.oldest himm) (fun cf r hin => ?_) s.poisoned
    refine (mem_append.mp hin).symm.imp_right fun hin => Mem.mem_sealedRecords.mpr ⟨oldest, ?_, ?_⟩
    · rw [himm]
      exact mem_cons_self
    · exact (mem_filter.mp hin).left
  case h_2 => exact h

theorem compact (h : s.Sound point) (he : s.Enabled (.compact cf records)) :
    (s.exec (.compact cf records)).Sound point := by
  obtain ⟨hr, _, hrecords⟩ := he
  have htables {P : Nat → Prop} (ht : ∀ cf, ∀ r ∈ s.tables cf, P r.seq) (cf' : F) (r : Record F E)
      (hin : r ∈ (s.exec (.compact cf records)).tables cf') : P r.seq := by
    simp only [exec] at hin
    by_cases hcf : cf' = cf
    · subst hcf
      rw [Function.update_self] at hin
      obtain ⟨r', hr', he⟩ := mem_map.mp (hrecords r hin)
      exact he ▸ ht cf' r' hr'
    · rw [Function.update_of_ne hcf] at hin
      exact ht cf' r hin
  refine ⟨h.cursor, h.entries, h.nonempty, h.mem, htables (P := (· < s.sequences.nextSeq)) h.tables, h.reserved, h.lane, h.frozen, fun c hc => ?_⟩
  have hrun := h.call c hc
  exact hrun.next_step hr rfl rfl rfl (Nat.le_refl _) (Nat.le_refl _) hrun.below
    (htables (P := (· ≤ c.visible)) hrun.tables) hrun.late (fun _ => id) fun _ => id

theorem setCall (h : s.Sound point) {call : Option (Call F)} (hc : ∀ c ∈ call, s.Running point c) :
    Sound point { s with call } :=
  ⟨h.cursor, h.entries, h.nonempty, h.mem, h.tables, h.reserved, h.lane, h.frozen,
    fun c hin => ⟨(hc c hin).visible, (hc c hin).next, (hc c hin).below, (hc c hin).tables, (hc c hin).late,
      (hc c hin).own, (hc c hin).shared, (hc c hin).turned, (hc c hin).both, (hc c hin).load, (hc c hin).fixed⟩⟩

theorem rotate (h : s.Sound point) (l : Lane F) (status : Status)
    (hc : ∀ c ∈ s.call, Running point (s.setMem l ((s.mem l).rotate status)) c) :
    Sound point (s.setMem l ((s.mem l).rotate status)) := by
  refine ⟨h.cursor, h.entries, h.nonempty, fun l' => ?_, h.tables, h.reserved, fun hu => ⟨?_, (h.lane hu).right⟩,
    h.frozen, hc⟩
  · refine mem_setMem (P := fun m => ∀ r ∈ m.records, r.seq < s.sequences.nextSeq) (fun _ => ?_) fun _ => h.mem l'
    rw [Mem.records_rotate]
    exact h.mem l
  · refine mem_setMem (P := fun m => m.records = []) ?_ fun _ => (h.lane hu).left
    rintro rfl
    rw [Mem.records_rotate]
    exact (h.lane hu).left

theorem swap (h : s.Sound point) (he : s.Enabled (.swap l)) (ho : s.Orderly point (.swap l)) :
    (s.exec (.swap l)).Sound point :=
  h.rotate l .unqueued fun c hc => (h.call c hc).rotate he.left (ho c hc) _

theorem start (h : s.Sound point) (ho : s.Orderly point .start) : (s.exec .start).Sound point := by
  obtain ⟨hres, hnext, hro⟩ := ho
  have hle {n : Nat} (hn : n < s.sequences.nextSeq) : n ≤ s.visibleSeq := by omega
  have hlt : s.visibleSeq < s.sequences.nextSeq := hnext ▸ Nat.lt_succ_self _
  simp only [exec]
  split
  case isTrue hr =>
    have hcontents (cf : F) : contents { s with mem := fun l => (s.mem l).rotate .unqueued } cf = s.contents cf := by
      simp only [contents, Mem.records_rotate]
    refine ⟨h.cursor, h.entries, h.nonempty, fun l r hin => h.mem l r (Mem.records_rotate ▸ hin), h.tables, h.reserved,
      fun hu => ⟨Mem.records_rotate.trans (h.lane hu).left, (h.lane hu).right⟩, h.frozen, fun c hc => ?_⟩
    cases hc
    refine ⟨Nat.le_refl _, hlt, fun l r hin => hle (h.mem l r (Mem.sealedRecords_rotate ▸ hin)),
      fun cf r hin => hle (h.tables cf r hin), by simp [hres], fun hw => absurd (hw.symm.trans hr) Bool.false_ne_true,
      fun hw => absurd (hw.symm.trans hr) Bool.false_ne_true, ?_, ?_,
      fun _ hw => absurd (hw.symm.trans hr) Bool.false_ne_true, fun _ => ⟨rfl, fun _ => Mem.active_rotate,
        fun l r hin => hle (h.mem l r (Mem.records_rotate ▸ hin)), ?_⟩⟩
    · rintro (hp | hp) <;> cases hp
    · intro hp
      cases hp
    · have hc : contents { s with mem := fun l => (s.mem l).rotate .unqueued } = s.contents := funext hcontents
      exact (congrArg (fun g => ∀ r ∈ s.families.flatMap g, r.seq ≤ raised point s.diskSeq (s.families.flatMap g)) hc).mpr
        (hro hr)
  case isFalse hr =>
    refine h.setCall fun c hc => ?_
    cases hc
    refine ⟨Nat.le_refl _, hlt, fun l r hin => hle (h.mem l r (mem_append_right _ hin)),
      fun cf r hin => hle (h.tables cf r hin), by simp [hres], fun _ cf hcf => .inl hcf, fun _ _ => .inl rfl, ?_, ?_, ?_,
      fun hro => absurd hro hr⟩
    · rintro (hp | hp) <;> cases hp
    · intro hp
      cases hp
    · intro hp
      cases hp

theorem callRotate (h : s.Sound point) (hr : s.readOnly = false) (hold : s.SealsOld l) (hc : c ∈ s.call) {c' : Call F}
    (hc' : (s.setMem l ((s.mem l).rotate .queued)).Running point c →
      (s.setMem l ((s.mem l).rotate .queued)).Rotated c.visible l →
      (s.setMem l ((s.mem l).rotate .queued)).Running point c') :
    Sound point { s.setMem l ((s.mem l).rotate .queued) with call := some c' } := by
  have hall (c : Call F) (hin : c ∈ s.call) := (h.call c hin).rotate hr (hold c hin) .queued
  have hactive : (s.setMem l ((s.mem l).rotate .queued)).Rotated c.visible l :=
    mem_setMem (P := fun m => ∀ r ∈ m.active, c.visible < r.seq) (fun _ => by simp) fun hne => absurd rfl hne
  refine (h.rotate l .queued hall).setCall fun c'' hin => ?_
  cases hin
  exact hc' (hall c hc) hactive

omit [DecidableEq F] in
theorem imm_eq_nil (hzero : s.pendingFor cf = 0) (hq : ∀ l ∈ s.lanesFor cf, ∀ m ∈ (s.mem l).imm, m.status = .queued)
    (hl : l ∈ s.lanesFor cf) : (s.mem l).imm = [] := by
  have hle : (s.mem l).pending ≤ s.pendingFor cf :=
    single_le_sum (fun _ _ => Nat.zero_le _) _ (mem_map_of_mem hl)
  exact Mem.imm_eq_nil (Nat.le_zero.mp (hzero ▸ hle)) (hq l hl)

theorem callStep (h : s.Sound point) (hc : s.call = some c) (hset : s.Settled c)
    (hwait : c.phase = .wait → ∀ cf ∈ c.todo.head?, s.pendingFor cf = 0) : (s.callStep c).Sound point := by
  have hrun := h.call c hc
  have hr (hp : c.phase ≠ .load) : s.readOnly = false := by
    by_contra hr
    exact hp (hrun.fixed (Bool.not_eq_false _ ▸ hr)).left
  obtain ⟨visible, todo, phase, persisted⟩ := c
  cases phase
  case load => exact h.setCall (by simp)
  case shared =>
    have hw := hr Phase.noConfusion
    refine h.callRotate hw hset hc fun hrun' hrot => ?_
    exact hrun'.turn hw (hrun'.own hw) (hrun'.shared hw) (fun _ => hrun'.turned (.inl rfl)) (fun _ _ => hrot) (by simp)
  case own =>
    have hw := hr Phase.noConfusion
    cases todo
    case nil =>
      refine h.setCall fun c hin => ?_
      cases hin
      exact hrun.turn hw (hrun.own hw) (hrun.shared hw) (by simp) (by simp) fun _ => ⟨rfl, hrun.visible⟩
    case cons cf todo =>
      refine h.callRotate hw (hset cf rfl) hc fun hrun' hrot => ?_
      refine hrun'.turn hw (hrun'.own hw) (hrun'.shared hw) (fun _ cf' hcf => ?_) (fun hp hu => ?_) fun hp => ?_
      · cases hcf
        exact hrot
      · rw [if_pos (show s.unified = true from hu)] at hp
        cases hp
      · split at hp <;> cases hp
  case wait =>
    have hw := hr Phase.noConfusion
    cases todo
    case nil => exact h
    case cons cf todo =>
      have hnil {l : Lane F} (hl : l ∈ s.lanesFor cf) : (s.mem l).imm = [] := imm_eq_nil (hwait rfl cf rfl) (hset cf rfl) hl
      refine h.setCall fun c hin => ?_
      cases hin
      refine hrun.turn hw (fun cf' hcf => ?_) (fun hu => ?_) (by simp) (by simp) (by simp)
      · rcases hrun.own hw cf' hcf with hin | hd
        · rcases mem_cons.mp hin with rfl | hin
          · refine .inr ⟨hrun.turned (.inr rfl) cf' rfl, hnil ?_⟩
            unfold lanesFor
            split
            · exact mem_cons_of_mem _ (mem_map_of_mem hcf)
            · exact mem_singleton_self _
          · exact .inl hin
        · exact .inr hd
      · refine .inr ⟨hrun.both rfl hu, hnil ?_⟩
        rw [lanesFor, if_pos hu]
        exact mem_cons_self

theorem exec {e : Event F E} (h : s.Sound point) (he : s.Enabled e) (ho : s.Orderly point e) : (s.exec e).Sound point := by
  cases e
  case reserve => exact h.reserve he
  case apply => exact h.apply he
  case applyErr => exact h.applyErr he
  case publish => exact h.publish he
  case swap => exact h.swap he ho
  case enqueue => exact h.kept he.left (.setStatus ..) (fun _ _ => .inl) s.poisoned
  case flush => exact h.flush he
  case flushFail => exact h.kept he.left (.setStatus ..) (fun _ _ => .inl) true
  case compact => exact h.compact he
  case start => exact h.start ho
  case call =>
    obtain ⟨hsome, hwait⟩ := he
    obtain ⟨c, hc⟩ := Option.isSome_iff_exists.mp hsome
    simp only [State.exec, hc]
    exact h.callStep hc (ho c hc) (hwait c hc)

theorem of_reachable (h₀ : s₀.Opened) (h : Reachable s₀ (OrderlyStep point) s) : s.Sound point := by
  refine h.invariant (.opened h₀) fun s s' hst hi => ?_
  obtain ⟨e, he, ho, rfl⟩ := hst
  exact hi.exec he ho

end Sound

end State

end OndaDb.Checkpoint

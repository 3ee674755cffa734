import OndaDb.Prepared.Theorems.Layers

-- Every record is in one place: a memtable, the tables, or among those that were dropped.
namespace OndaDb.Prepared.Store

open List

variable {I K V : Type} {s s' : Store I K V} {g : Nat} {i : Item I K V} {items dropped : List (Item I K V)}

def InMem (s : Store I K V) (i : Item I K V) : Prop :=
  ∃ m ∈ s.mems, i ∈ m.items

def In (s : Store I K V) (g : Nat) (i : Item I K V) : Prop :=
  ∃ m ∈ s.mems, g ∈ m.gens ∧ i ∈ m.items

def Somewhere (s : Store I K V) (dropped : List (Item I K V)) (i : Item I K V) : Prop :=
  s.InMem i ∨ i ∈ s.tables ∨ i ∈ dropped

theorem In.inMem (h : s.In g i) : s.InMem i := by
  obtain ⟨m, hm, -, hi⟩ := h
  exact ⟨m, hm, hi⟩

structure Placed (s : Store I K V) (dropped : List (Item I K V)) : Prop where
  apart : s.mems.Pairwise fun m m' => ∀ i ∈ m.items, i ∉ m'.items
  mem : ∀ i, s.InMem i → i ∉ s.tables ∧ i ∉ dropped
  gone : ∀ i ∈ s.tables, i ∉ dropped
  -- Above the floor the memtables hold what the log does.
  data : ∀ g items, At s.files g (.data items) → s.floor ≤ g → ∀ i ∈ items, s.In g i

def add (s : Store I K V) (items : List (Item I K V)) : Store I K V :=
  { s with active := { s.active with items := items ++ s.active.items } }

theorem inMem_add : (s.add items).InMem i ↔ i ∈ items ∨ s.InMem i := by
  simp only [InMem, mems, add, mem_append, mem_singleton, or_and_right, exists_or,
    exists_eq_left]
  exact or_left_comm

theorem In.add (h : s.In g i) : (s.add items).In g i := by
  obtain ⟨m, hm, hg, hi⟩ := h
  rcases mem_append.mp hm with hm | hm
  · exact ⟨m, mem_append_left _ hm, hg, hi⟩
  · rw [mem_singleton] at hm
    subst hm
    exact ⟨_, mem_append_right _ mem_cons_self, hg, mem_append_right _ hi⟩

theorem in_add_self (ha : g ∈ s.active.gens) (hi : i ∈ items) : (s.add items).In g i :=
  ⟨_, mem_append_right _ mem_cons_self, ha, mem_append_left _ hi⟩

theorem inMem_rotate : s.rotate.InMem i ↔ s.InMem i := by
  simp [InMem, mems, rotate, or_and_right, exists_or]

theorem In.rotate (h : s.In g i) : s.rotate.In g i := by
  obtain ⟨m, hm, h⟩ := h
  exact ⟨m, mem_append_left _ hm, h⟩

section Flush

variable {imm : Sealed I K V} {imms : List (Sealed I K V)}

theorem inMem_flush (hs : s.imms = imm :: imms) : s.InMem i ↔ i ∈ imm.items ∨ s.flush.InMem i := by
  simp [InMem, mems, flush, hs, or_and_right, exists_or]

theorem tables_flush (hs : s.imms = imm :: imms) : s.flush.tables = imm.items ++ s.tables := by
  rw [flush, hs]

theorem floor_flush (hs : s.imms = imm :: imms) :
    s.flush.floor = max s.floor (lowestUnflushedGen s.gen (imms ++ [s.active])) := by
  rw [flush, hs]

theorem In.flush (hl : s.Layers) (hs : s.imms = imm :: imms) (h : s.In g i) (hg : s.flush.floor ≤ g) :
    s.flush.In g i := by
  obtain ⟨m, hm, hm', hi⟩ := h
  rw [mems, hs, cons_append] at hm
  rcases mem_cons.mp hm with rfl | hm
  · have := hl.imm_lt hs hm'
    rw [floor_flush hs] at hg
    omega
  · refine ⟨m, ?_, hm', hi⟩
    rw [mems, Store.flush, hs]
    exact hm

theorem In.flushed (hs : s.imms = imm :: imms) (h : s.In g i) (hf : s.floor ≤ g)
    (hg : g < s.flush.floor) : i ∈ s.flush.tables := by
  obtain ⟨m, hm, hm', hi⟩ := h
  rw [mems, hs, cons_append] at hm
  rw [tables_flush hs]
  rcases mem_cons.mp hm with rfl | hm
  · exact mem_append_left _ hi
  · have := mem_lowestUnflushedGen (s := s) hm hm'
    rw [floor_flush hs] at hg
    omega

end Flush

namespace Placed

theorem congr (h : s.Placed dropped) (hm : s'.mems = s.mems) (ht : s'.tables = s.tables)
    (hf : s'.floor = s.floor) (hd : ∀ g items, At s'.files g (.data items) → At s.files g (.data items)) :
    s'.Placed dropped where
  apart := by rw [hm]; exact h.apart
  mem := by simp only [InMem, hm, ht]; exact h.mem
  gone := by rw [ht]; exact h.gone
  data := fun g items hat hg i hi => by
    simp only [In, hm]
    exact h.data g items (hd g items hat) (hf ▸ hg) i hi

theorem start : Placed (start maxBytes : Store I K V) [] where
  apart := pairwise_singleton _ _
  mem := by simp [InMem, mems, Store.start]
  gone := nofun
  data := fun g items h => by simp [Store.start, At] at h

theorem add (h : s.Placed dropped) (hnew : ∀ i ∈ items, ¬ s.Somewhere dropped i) :
    (s.add items).Placed dropped where
  apart := by
    have ha := h.apart
    rw [mems, pairwise_append] at ha ⊢
    refine ⟨ha.1, pairwise_singleton _ _, fun m hm m' hm' i hi hi' => ?_⟩
    rw [mem_singleton] at hm'
    subst hm'
    rcases mem_append.mp hi' with hi' | hi'
    · exact hnew i hi' (.inl ⟨m, mem_append_left _ hm, hi⟩)
    · exact ha.2.2 m hm _ mem_cons_self i hi hi'
  mem := fun i hi => by
    rcases inMem_add.mp hi with hi | hi
    · exact ⟨fun h => hnew i hi (.inr (.inl h)), fun h => hnew i hi (.inr (.inr h))⟩
    · exact h.mem i hi
  __ := h
  data := fun g items hat hg i hi => (h.data g items hat hg i hi).add

theorem commit (h : s.Placed dropped) (hl : s.Layers) (hnew : ∀ i ∈ items, ¬ s.Somewhere dropped i) :
    (s.commit items).Placed dropped := by
  have hadd := h.add hnew
  refine ⟨hadd.apart, hadd.mem, hadd.gone, fun g items' hat hg i hi => ?_⟩
  rcases at_append.mp hat with hat | ⟨rfl, heq, -⟩
  · exact hadd.data g items' hat hg i hi
  · obtain rfl : items' = items := by simpa using heq
    exact in_add_self hl.active hi

theorem rotate (h : s.Placed dropped) : s.rotate.Placed dropped where
  apart := by
    rw [mems, Store.rotate, pairwise_append]
    refine ⟨h.apart, pairwise_singleton _ _, fun m hm m' hm' i hi hi' => ?_⟩
    rw [mem_singleton] at hm'
    subst hm'
    cases hi'
  mem := fun i hi => h.mem i (inMem_rotate.mp hi)
  __ := h
  data := fun g items hat hg i hi => (h.data g items (at_new.mp hat) hg i hi).rotate

theorem flush (h : s.Placed dropped) (hl : s.Layers) : s.flush.Placed dropped := by
  rcases hs : s.imms with _ | ⟨imm, imms⟩
  · rw [Store.flush, hs]; exact h
  have ha := h.apart
  rw [mems, hs, cons_append, pairwise_cons] at ha
  have hm' : s.flush.mems = imms ++ [s.active] := by rw [mems, Store.flush, hs]
  have hfiles : s.flush.files = s.files := by rw [Store.flush, hs]
  refine ⟨?_, fun i hi => ?_, fun i hi => ?_, fun g items hat hg i hi => ?_⟩
  · rw [hm']; exact ha.2
  · have hold := h.mem i ((inMem_flush hs).mpr (.inr hi))
    refine ⟨fun ht => ?_, hold.2⟩
    rw [tables_flush hs, mem_append] at ht
    obtain ⟨m, hm, hi⟩ := hi
    exact ht.elim (fun ht => ha.1 m (hm' ▸ hm) i ht hi) hold.1
  · rw [tables_flush hs, mem_append] at hi
    rcases hi with hi | hi
    · exact (h.mem i ((inMem_flush hs).mpr (.inl hi))).2
    · exact h.gone i hi
  · have hle : s.floor ≤ g := (Nat.le_max_left _ _).trans (floor_flush hs ▸ hg)
    exact (h.data g items (hfiles ▸ hat) hle i hi).flush hl hs hg

theorem compact (h : s.Placed dropped) :
    (s.compact keep).Placed (s.tables.filter (fun i => !keep i) ++ dropped) where
  __ := h
  mem := fun i hi => by
    obtain ⟨ht, hd⟩ := h.mem i hi
    refine ⟨fun h => ht (mem_filter.mp h).1, fun h => ?_⟩
    rcases mem_append.mp h with h | h
    · exact ht (mem_filter.mp h).1
    · exact hd h
  gone := fun i hi hd => by
    obtain ⟨ht, hk⟩ := mem_filter.mp hi
    rcases mem_append.mp hd with hd | hd
    · have := (mem_filter.mp hd).2
      rw [hk] at this
      cases this
    · exact h.gone i ht hd

end Placed

section Recovery

variable {files : List (File I K V)} {floor : Nat}

theorem mem_replayed : i ∈ replayed floor files ↔
    ∃ g items, At files g (.data items) ∧ floor ≤ g ∧ i ∈ items := by
  simp only [replayed, mem_flatMap, mem_filter, decide_eq_true_eq]
  constructor
  · rintro ⟨file, ⟨hf, hg⟩, ⟨f, b⟩, hm, hi⟩
    cases f
    case data items => exact ⟨file.gen, items, ⟨file, hf, rfl, b, hm⟩, hg, hi⟩
    case prepare => cases hi
    case decision => cases hi
  · rintro ⟨g, items, ⟨file, hf, rfl, b, hm⟩, hg, hi⟩
    exact ⟨file, ⟨hf, hg⟩, _, hm, hi⟩

variable [DecidableEq I] [LinearOrder K] {size : List (WriteEntry K V) → Nat} {tables : List (Item I K V)}
  {maxBytes : Nat}

theorem Reopened.inMem (h : Reopened size files tables floor maxBytes s) : s.InMem i ↔
    (∃ p ∈ prepares files, i ∈ p.items (decisions files) floor) ∨ i ∈ replayed floor files := by
  simp [InMem, mems, h.imms, h.items.mem_iff, mem_flatMap]

theorem Reopened.in_of_mem (h : Reopened size files tables floor maxBytes s) (hi : s.InMem i)
    (hg : g ∈ files.map File.gen) : s.In g i := by
  obtain ⟨m, hm, hi⟩ := hi
  rw [mems, h.imms, nil_append, mem_singleton] at hm
  subst hm
  refine ⟨_, mem_append_right _ mem_cons_self, ?_, hi⟩
  rw [h.gens]
  exact mem_append_left _ hg

omit [DecidableEq I] [LinearOrder K] in
theorem mem_gens_of_at (h : At files g f) : g ∈ files.map File.gen := by
  obtain ⟨file, hf, hg, -⟩ := h
  exact mem_map.mpr ⟨file, hf, hg⟩

theorem Placed.reopen (h : s.Placed dropped)
    (hr : Reopened size (survivors sv s.files) s.tables s.floor maxBytes s')
    (hrec : ∀ p ∈ prepares (survivors sv s.files), ∀ i ∈ p.items (decisions (survivors sv s.files)) s.floor, i ∉ s.tables ∧ i ∉ dropped) :
    s'.Placed dropped where
  apart := by rw [mems, hr.imms]; exact pairwise_singleton _ _
  mem := fun i hi => by
    rw [hr.tables]
    rcases hr.inMem.mp hi with ⟨p, hp, hi⟩ | hi
    · exact hrec p hp i hi
    · obtain ⟨g, items, hat, hg, hi⟩ := mem_replayed.mp hi
      exact h.mem i (h.data g items (at_of_survivors hat) hg i hi).inMem
  gone := by rw [hr.tables]; exact h.gone
  data := fun g items hat hg i hi => by
    rw [hr.files, at_new] at hat
    rw [hr.floor] at hg
    refine hr.in_of_mem ?_ (mem_gens_of_at hat)
    exact hr.inMem.mpr (.inr (mem_replayed.mpr ⟨g, items, hat, hg, hi⟩))

end Recovery

end OndaDb.Prepared.Store

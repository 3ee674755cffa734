import OndaDb.Compaction.Basic

namespace OndaDb.OutputBuilder

open List

section add

variable {K V : Type} {job : FrozenJob K V} {b : OutputBuilder K V} {v : Version K V}

theorem add_current : (add job b v).current = some {
    entries := ((b.current.map (·.entries)).getD []) ++ [v]
    bytes := ((b.current.map (·.bytes)).getD 0) + job.length v.key v.value
    partition := (b.current.map (·.partition)).getD (job.partitioner.bind (·.nameOf v.key)) } := by
  unfold add
  cases b.current <;> simp only <;> split <;> rfl

@[simp]
theorem add_outputs : (add job b v).outputs = b.outputs := by
  unfold add; simp only; split <;> rfl

@[simp]
theorem add_fragments : (add job b v).fragments = b.fragments := by
  unfold add; simp only; split <;> rfl

@[simp]
theorem add_intervalLower : (add job b v).intervalLower = b.intervalLower := by
  unfold add; simp only; split <;> rfl

@[simp]
theorem add_spanUpper : (add job b v).spanUpper = b.spanUpper := by
  unfold add; simp only; split <;> rfl

@[simp]
theorem add_lastBoundary :
    (add job b v).lastBoundary = job.partitioner.bind (·.boundary v.key) := by
  unfold add; simp only; split <;> rfl

theorem add_cutAfter (h : (add job b v).pendingCut) :
    (add job b v).cutAfter = some v.key ∨ b.pendingCut ∧ (add job b v).cutAfter = b.cutAfter := by
  unfold add at h ⊢
  simp only at h ⊢
  split at h
  case isTrue hc => simp [hc]
  case isFalse hc => simp_all

end add

variable {K V : Type} [LinearOrder K] [Inhabited K]

def table (job : FrozenJob K V) (frags : List (Fragment K)) (lower upper : Option K)
    (entries : List (Version K V)) : Table K V where
  id := 0
  entries := entries
  fragments := clipFragments frags lower upper
  minKey := (bounds entries (clipFragments frags lower upper)).1
  maxKey := (bounds entries (clipFragments frags lower upper)).2
  partition := entries.head?.bind fun v => job.partitioner.bind (·.nameOf v.key)
  tier := none
  foreign := false

def cutOf (upper : Option K) : List (List (Version K V)) → Option K
  | [] => upper
  | c :: _ => c.head?.map Version.key

-- The tables of consecutive chunks of the written versions. Each owns the interval from its first
-- key to the first key of the next one; the first is extended down, the last up to `upper`.
def tile (job : FrozenJob K V) (frags : List (Fragment K)) (upper : Option K) :
    Option K → List (List (Version K V)) → List (Table K V)
  | _,     [] => []
  | lower, c :: cs =>
    table job frags lower (cutOf upper cs) c :: tile job frags upper (cutOf upper cs) cs

structure Chunks (ws : List (Version K V)) (cs : List (List (Version K V))) : Prop where
  flatten : cs.flatten = ws
  nonempty : ∀ c ∈ cs, c ≠ []
  apart : cs.IsChain fun c c' => ∀ v ∈ c.getLast?, ∀ w ∈ c'.head?, v.key ≠ w.key

variable {job : FrozenJob K V} {frags : List (Fragment K)} {upper : Option K}

theorem tile_concat :
    tile job frags upper lower (cs ++ [c, c']) =
      tile job frags (c'.head?.map Version.key) lower (cs ++ [c]) ++
        [table job frags (c'.head?.map Version.key) upper c'] := by
  induction cs generalizing lower
  case nil => simp [tile, cutOf]
  case cons d cs hi =>
    have : cutOf upper (cs ++ [c, c']) = cutOf (c'.head?.map Version.key) (cs ++ [c]) := by
      cases cs <;> simp [cutOf]
    simp only [cons_append, tile, this, hi]

-- The state of the builder once `ws` has been written: `done` are the chunks of the finished
-- outputs, `cur` is the chunk of the current one.
structure Writing (job : FrozenJob K V) (frags : List (Fragment K)) (upper : Option K)
    (ws : List (Version K V)) (done : List (List (Version K V))) (cur : List (Version K V))
    (b : OutputBuilder K V) : Prop where
  current : ∃ n, b.current = some ⟨cur, n, cur.head?.bind fun v => job.partitioner.bind (·.nameOf v.key)⟩
  outputs : ∀ u es, tile job frags u none (done ++ [cur ++ es]) =
                b.outputs ++ [table job frags b.intervalLower u (cur ++ es)]
  fragments : b.fragments = frags
  spanUpper : b.spanUpper = upper
  chunks : Chunks ws (done ++ [cur])
  boundary : b.lastBoundary = cur.getLast?.bind fun v => job.partitioner.bind (·.boundary v.key)
  partition : ∀ v ∈ cur, (job.partitioner.bind (·.nameOf v.key)) =
                cur.head?.bind fun v => job.partitioner.bind (·.nameOf v.key)
  cutAfter : b.pendingCut → b.cutAfter = cur.getLast?.map Version.key

namespace Writing

variable {b : OutputBuilder K V}

theorem cur_ne_nil (h : Writing job frags upper ws done cur b) : cur ≠ [] :=
  h.chunks.nonempty cur (by simp)

theorem not_cut (h : Writing job frags upper ws done cur b) (hv : cur.getLast? = some v) :
    ¬(b.partitionCut job v.key || b.sizeCut v.key) := by
  obtain ⟨n, hc⟩ := h.current
  have hb := h.boundary
  have hp := h.partition v (mem_of_getLast? hv)
  simp only [hv, Option.bind_some] at hb
  simp only [partitionCut, hc, sizeCut, boundaryChanged, Bool.or_eq_true, Bool.and_eq_true, hb, ← hp]
  have ha := h.cutAfter
  simp only [hv, Option.map_some] at ha
  cases hj : job.partitioner <;> simp_all
  case some r => cases hr : r.boundary v.key <;> simp_all

theorem extend (h : Writing job frags upper ws done cur b)
    (hc : ¬(b.partitionCut job v.key || b.sizeCut v.key)) :
    Writing job frags upper (ws ++ [v]) done (cur ++ [v]) (add job b v) := by
  obtain ⟨n, hcur⟩ := h.current
  have hne := h.cur_ne_nil
  have hhead : (cur ++ [v]).head? = cur.head? := by
    cases cur <;> simp_all
  have hp : (job.partitioner.bind (·.nameOf v.key)) =
      cur.head?.bind fun v => job.partitioner.bind (·.nameOf v.key) := by
    simp only [partitionCut, hcur, Bool.or_eq_true, not_or] at hc
    exact Eq.symm (by simpa using hc.1.2)
  refine ⟨?_, ?_, by simp [h.fragments], by simp [h.spanUpper], ⟨?_, ?_, ?_⟩, by simp, ?_, ?_⟩
  · exact ⟨n + job.length v.key v.value, by simp [add_current, hcur, hhead]⟩
  · intro u es
    simp only [append_assoc, add_outputs, add_intervalLower]
    exact h.outputs u ([v] ++ es)
  · simp [← h.chunks.flatten]
  · intro c hmem
    rcases mem_append.mp hmem with hmem | hmem
    · exact h.chunks.nonempty c (mem_append_left _ hmem)
    · simp_all
  · have ha := isChain_append.mp h.chunks.apart
    refine isChain_append.mpr ⟨ha.1, .singleton _, ?_⟩
    simpa [hhead] using ha.2.2
  · intro w hw
    rw [hhead]
    rcases mem_append.mp hw with hw | hw
    · exact h.partition w hw
    · simp_all
  · intro hpc
    simp only [getLast?_concat, Option.map_some]
    rcases add_cutAfter hpc with ha | ⟨hb, ha⟩
    · exact ha
    · -- A cut armed earlier waits for this very key, or it would have been made.
      simp only [sizeCut, hb, hcur, Bool.or_eq_true, not_or] at hc
      simpa [ha] using hc.2

theorem cut (h : Writing job frags upper ws done cur b)
    (hc : b.partitionCut job v.key || b.sizeCut v.key) :
    Writing job frags upper (ws ++ [v]) (done ++ [cur]) [v]
      (add job { b.finishCurrent (some v.key) with pendingCut := false } v) := by
  obtain ⟨n, hcur⟩ := h.current
  have hfin : b.finishCurrent (some v.key) = { b with
      current := none
      outputs := b.outputs ++ [table job frags b.intervalLower (some v.key) cur]
      intervalLower := some v.key } := by
    simp [finishCurrent, hcur, table, h.fragments]
  have hlast : ∀ w ∈ cur.getLast?, w.key ≠ v.key := fun w hw he => h.not_cut hw (he ▸ hc)
  rw [hfin]
  refine ⟨?_, ?_, by simp [h.fragments], by simp [h.spanUpper], ⟨?_, ?_, ?_⟩, by simp, ?_, ?_⟩
  · exact ⟨0 + job.length v.key v.value, by simp [add_current]⟩
  · intro u es
    have ho := h.outputs (some v.key) []
    simp only [append_nil] at ho
    simp only [append_assoc, cons_append, nil_append, add_outputs, add_intervalLower]
    rw [tile_concat]
    simp [ho]
  · simp [← h.chunks.flatten]
  · intro c hmem
    rcases mem_append.mp hmem with hmem | hmem
    · exact h.chunks.nonempty c hmem
    · simp_all
  · refine isChain_append.mpr ⟨h.chunks.apart, .singleton _, ?_⟩
    simpa using hlast
  · simp
  · intro hpc
    rcases add_cutAfter hpc with ha | ⟨hb, _⟩
    · simpa using ha
    · simp at hb

theorem write (h : Writing job frags upper ws done cur b) (v : Version K V) :
    ∃ done cur, Writing job frags upper (ws ++ [v]) done cur (b.write job v) := by
  unfold OutputBuilder.write
  split
  case isTrue hc => exact ⟨_, _, h.cut hc⟩
  case isFalse hc => exact ⟨_, _, h.extend hc⟩

theorem first (v : Version K V) :
    Writing job frags upper [v] [] [v] ((new frags upper).write job v) := by
  have hw : (new frags upper).write job v = add job (new frags upper) v :=
    if_neg (by simp [partitionCut, sizeCut, new])
  rw [hw]
  refine ⟨⟨0 + job.length v.key v.value, by simp [add_current, new]⟩, ?_, by simp [new], by simp [new],
    ⟨?_, ?_, ?_⟩, by simp, ?_, ?_⟩
  · simp [tile, cutOf, new]
  · simp
  · simp
  · simp
  · simp
  · intro hpc
    rcases add_cutAfter hpc with ha | ⟨hb, _⟩
    · simpa using ha
    · simp [new] at hb

theorem foldl_write (h : Writing job frags upper ws done cur b) (vs : List (Version K V)) :
    ∃ done cur, Writing job frags upper (ws ++ vs) done cur (vs.foldl (OutputBuilder.write job) b) := by
  induction vs generalizing ws done cur b
  case nil => exact ⟨done, cur, by simpa using h⟩
  case cons v vs hi =>
    obtain ⟨_, _, h⟩ := h.write v
    simpa using hi h

theorem finish (h : Writing job frags upper ws done cur b) :
    b.finish = tile job frags upper none (done ++ [cur]) := by
  obtain ⟨n, hcur⟩ := h.current
  have ho := h.outputs upper []
  simp only [append_nil] at ho
  simp [OutputBuilder.finish, finishCurrent, hcur, ho, table, h.fragments, h.spanUpper]

end Writing

theorem finish_foldl_write (hws : ws ≠ []) :
    ∃ cs, Chunks ws cs ∧
      (ws.foldl (write job) (new frags upper)).finish = tile job frags upper none cs := by
  match ws with
  | v :: vs =>
    have hf : Writing job frags upper [v] [] [v] _ := .first v
    obtain ⟨done, cur, h⟩ := hf.foldl_write vs
    exact ⟨done ++ [cur], h.chunks, h.finish⟩

theorem finish_new (job : FrozenJob K V) :
    (new frags upper).finish = if frags = [] then [] else [table job frags none upper []] := by
  unfold OutputBuilder.finish
  split <;> simp_all [new, finishCurrent, table]

end OndaDb.OutputBuilder

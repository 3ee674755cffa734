import OndaDb.Dirs.Basic

namespace OndaDb.Dirs

open List

variable {root : DirPath} {s : State}

theorem cfDir_eq (h : '/' ∉ name.toList) : cfDir root name = root ++ [cfDirName name] := by
  have hname : (cfDirName name).toList = 'c' :: 'f' :: '-' :: name.toList := String.toList_append ..
  have hslash : '/' ∉ (cfDirName name).toList := by
    rw [hname]
    simpa using h
  -- The prefix keeps a name from being one of those that resolution treats apart.
  have hne (t : String) (ht : t.toList.head? ≠ some 'c') : cfDirName name ≠ t := by
    rintro rfl
    rw [hname] at ht
    exact ht rfl
  rw [cfDir, DirPath.components_eq _ hslash, DirPath.resolve, foldl_cons, foldl_nil, DirPath.step,
    if_neg (not_or.mpr ⟨hne _ (by decide), hne _ (by decide)⟩), if_neg (hne _ (by decide))]

theorem cfDir_apart (h : '/' ∉ name.toList) (h' : '/' ∉ name'.toList) (hne : name ≠ name') :
    (cfDir root name).Apart (cfDir root name') := by
  rw [cfDir_eq h, cfDir_eq h']
  apply DirPath.apart_of_child
  intro heq
  exact hne (String.append_right_inj _ |>.mp heq)

theorem Table.sstId?_eq (t : Table) (h : x ∈ t.files) : x.sstId? = some t.id := by
  rw [files, mem_cons] at h
  rcases h with rfl | h
  · rfl
  · rw [mem_ite_nil_right, mem_singleton] at h
    rw [h.2]
    rfl

namespace State

@[simp]
theorem family_set (name name' : String) (f : Family) :
    (s.set name f).family name' = if name' = name then some f else s.family name' :=
  Map.lookup_insert_eq ..

theorem mem_write :
    p ∈ (s.write root name files).disk ↔ p.1 = cfDir root name ∧ p.2 ∈ files ∨ p ∈ s.disk := by
  obtain ⟨dir, x⟩ := p
  simp only [write, mem_append, mem_map, Prod.mk.injEq]
  constructor
  · rintro (⟨y, hy, hdir, rfl⟩ | h)
    · exact .inl ⟨hdir.symm, hy⟩
    · exact .inr h
  · rintro (⟨hdir, hx⟩ | h)
    · exact .inl ⟨x, hx, hdir.symm, rfl⟩
    · exact .inr h

theorem mem_unlink :
    p ∈ (s.unlink root name files).disk ↔ p ∈ s.disk ∧ (p.1 = cfDir root name → p.2 ∉ files) := by
  simp only [unlink, mem_filter, decide_eq_true_eq, imp_iff_not_or]

theorem mem_removeDirAll :
    p ∈ (s.removeDirAll dir).disk ↔ p ∈ s.disk ∧ ¬dir <+: p.1 := by
  simp only [removeDirAll, mem_filter, decide_eq_true_eq]

structure Kept (root : DirPath) (disk : List (DirPath × File)) (name : String) (f : Family) : Prop where
  plain : '/' ∉ name.toList
  files : ∀ x ∈ f.files, (cfDir root name, x) ∈ disk
  wals : f.wals.Nodup
  gens : ∀ gen ∈ f.wals, gen ≤ f.walGen

def Sound (root : DirPath) (s : State) : Prop :=
  ∀ name f, s.family name = some f → Kept root s.disk name f

theorem Kept.mono {disk disk' : List (DirPath × File)} {name : String} {f : Family} (h : Kept root disk name f)
    (hd : ∀ x ∈ f.files, (cfDir root name, x) ∈ disk → (cfDir root name, x) ∈ disk') : Kept root disk' name f :=
  { h with files := fun x hx => hd x hx (h.files x hx) }

theorem Sound.apart (h : s.Sound root) (hf : s.family name = some f) (hf' : s.family name' = some f')
    (hne : name ≠ name') : (cfDir root name).Apart (cfDir root name') :=
  cfDir_apart (h name f hf).plain (h name' f' hf').plain hne

theorem Sound.change (h : s.Sound root) {s' : State} (name : String)
    (hfam : ∀ name' ≠ name, s'.family name' = s.family name')
    (hdisk : ∀ name' ≠ name, ∀ f, s.family name' = some f → ∀ x, (cfDir root name', x) ∈ s.disk →
      (cfDir root name', x) ∈ s'.disk)
    (hself : ∀ f, s'.family name = some f → Kept root s'.disk name f) : s'.Sound root := by
  intro name' f hf
  by_cases hn : name' = name
  case pos =>
    subst hn
    exact hself f hf
  rw [hfam name' hn] at hf
  exact (h name' f hf).mono fun x _ hx => hdisk name' hn f hf x hx

theorem Sound.set_write (h : s.Sound root) {name : String} {f : Family}
    (hf : Kept root (s.write root name files).disk name f) :
    ((s.write root name files).set name f).Sound root := by
  apply h.change name
  · intro name' hn
    rw [family_set, if_neg hn]
    rfl
  · intro name' _ f' _ x hx
    exact mem_write.mpr (.inr hx)
  · intro f' hf'
    rw [family_set, if_pos rfl, Option.some.injEq] at hf'
    exact hf' ▸ hf

theorem Sound.register (h : s.Sound root) (hn : '/' ∉ name.toList) : (s.register root name).Sound root := by
  apply h.set_write
  refine ⟨hn, fun x hx => mem_write.mpr (.inl ⟨rfl, ?_⟩), by decide, by decide⟩
  simpa [Family.files, Family.wals, Family.create] using hx

theorem Sound.create (h : s.Sound root) (hn : ∀ name ∈ names, '/' ∉ name.toList) :
    (s.createColumnFamilies root names).Sound root := by
  rw [createColumnFamilies]
  split
  case isFalse => exact h
  clear * - h hn
  induction names generalizing s
  case nil => exact h
  case cons name rest ih =>
    exact ih (h.register (hn name (mem_cons_self ..))) fun n hmem => hn n (mem_cons_of_mem _ hmem)

theorem Sound.rotate (h : s.Sound root) (name : String) : (s.rotate root name).Sound root := by
  rw [State.rotate]
  cases hf : s.family name
  case none => exact h
  case some f =>
    have hk := h name f hf
    have hwals : f.rotate.wals = f.wals ++ [f.walGen + 1] := by simp [Family.rotate, Family.wals]
    apply h.set_write
    refine ⟨hk.plain, fun x hx => mem_write.mpr ?_, ?_, ?_⟩
    · rw [Family.files, hwals, map_append, mem_append, mem_append] at hx
      rcases hx with (hx | hx) | hx
      · exact .inr (hk.files x (mem_append_left _ hx))
      · exact .inl ⟨rfl, hx⟩
      · exact .inr (hk.files x (mem_append_right _ hx))
    · rw [hwals, nodup_append]
      refine ⟨hk.wals, by simp, fun g hg g' hg' => ?_⟩
      have := hk.gens g hg
      rw [mem_singleton] at hg'
      omega
    · intro g hg
      rw [hwals, mem_append, mem_singleton] at hg
      rcases hg with hg | rfl
      · exact (hk.gens g hg).trans (Nat.le_succ _)
      · exact le_rfl

theorem wal_notMem_tables {tables : List Table} {gen : Nat} : File.wal gen ∉ tables.flatMap Table.files := by
  intro h
  obtain ⟨t, -, ht⟩ := mem_flatMap.mp h
  cases t.sstId?_eq ht

theorem Sound.flush (h : s.Sound root) (name : String) (hasVlog : Option Bool) (published : Bool) :
    (s.flush root name hasVlog published).Sound root := by
  rw [State.flush]
  split
  case h_1 => exact h
  case h_2 f hf =>
    have hk := h name f hf
    split
    case h_1 => exact h
    case h_2 sealed rest himm =>
      generalize (hasVlog.map (Table.mk s.nextFileId)).toList = tables
      cases published
      case false =>
        exact fun name' f' hf' => (h name' f' hf').mono fun x _ hx => mem_write.mpr (.inr hx)
      case true =>
        have hwals : f.wals = sealed ++ (rest.flatten ++ f.pending) := by simp [Family.wals, himm]
        have hnodup := nodup_append.mp (hwals ▸ hk.wals)
        apply h.change name
        · intro name' hn
          exact (family_set ..).trans (if_neg hn)
        · intro name' hn f' hf' x hx
          refine mem_unlink.mpr ⟨mem_write.mpr (.inr hx), fun hdir => ?_⟩
          exact absurd hdir (h.apart hf' hf hn).ne
        · intro f' hf'
          obtain rfl : { f with imm := rest, tables := tables ++ f.tables } = f' :=
            Option.some.inj ((family_set (s := s) name name _).trans (if_pos rfl) |>.symm.trans hf')
          refine ⟨hk.plain, fun x hx => mem_unlink.mpr ⟨mem_write.mpr ?_, fun _ hsealed => ?_⟩, hnodup.2.1, ?_⟩
          · rw [Family.files, mem_append, flatMap_append, mem_append] at hx
            rcases hx with hx | hx | hx
            · obtain ⟨g, hg, rfl⟩ := mem_map.mp hx
              refine .inr (hk.files _ (mem_append_left _ (mem_map_of_mem ?_)))
              rw [hwals]
              exact mem_append_right _ hg
            · exact .inl ⟨rfl, hx⟩
            · exact .inr (hk.files x (mem_append_right _ hx))
          · obtain ⟨g, hg, rfl⟩ := mem_map.mp hsealed
            rcases mem_append.mp hx with hx | hx
            · obtain ⟨g', hg', heq⟩ := mem_map.mp hx
              exact hnodup.2.2 g hg g' hg' (File.wal.inj heq).symm
            · exact wal_notMem_tables hx
          · intro g hg
            apply hk.gens g
            rw [hwals]
            exact mem_append_right _ hg

theorem family_erase (name name' : String) :
    State.family { s with cfs := s.cfs.erase name } name' = if name' = name then none else s.family name' :=
  Map.lookup_erase_eq ..

theorem Sound.erase (h : s.Sound root) {f : Family} (hf : s.family name = some f) :
    ({ s with cfs := s.cfs.erase name }.removeDirAll (cfDir root name)).Sound root := by
  apply h.change name
  · intro name' hn
    exact (family_erase ..).trans (if_neg hn)
  · intro name' hn f' hf' x hx
    exact mem_removeDirAll.mpr ⟨hx, (h.apart hf hf' hn.symm).1⟩
  · intro f' hf'
    cases (family_erase name name |>.trans (if_pos rfl)).symm.trans hf'

theorem Sound.drop (h : s.Sound root) (name : String) : (s.dropColumnFamily root name).Sound root := by
  rw [dropColumnFamily]
  cases hf : s.family name
  case none => exact h
  case some f => exact h.erase hf

theorem Sound.clear (h : s.Sound root) (name : String) : (s.clearColumnFamily root name).Sound root := by
  rw [clearColumnFamily]
  cases hf : s.family name
  case none => exact h
  case some f => exact (h.erase hf).register (h name f hf).plain

theorem Sound.sweep (h : s.Sound root) (name : String) : (s.sweep root name).Sound root := by
  rw [State.sweep]
  cases hf : s.family name
  case none => exact h
  case some f =>
    intro name' f' hf'
    refine (h name' f' hf').mono fun x hx hmem => mem_unlink.mpr ⟨hmem, fun hdir hgone => ?_⟩
    by_cases hn : name' = name
    case neg => exact (h.apart hf' hf hn).ne hdir
    subst hn
    obtain rfl : f' = f := Option.some.inj (hf'.symm.trans hf)
    obtain ⟨-, id, hid, hnot⟩ := by simpa using hgone
    rcases mem_append.mp hx with hx | hx
    · obtain ⟨g, -, rfl⟩ := mem_map.mp hx
      cases hid
    · obtain ⟨t, ht, hx⟩ := mem_flatMap.mp hx
      exact hnot t ht (Option.some.inj ((t.sstId?_eq hx).symm.trans hid))

theorem mem_list : x ∈ s.list dir ↔ (dir, x) ∈ s.disk := by
  simp [list]

theorem mem_existingWalGens : gen ∈ s.existingWalGens dir ↔ (dir, .wal gen) ∈ s.disk := by
  rw [existingWalGens, mem_mergeSort, mem_dedup, mem_filterMap, ← mem_list]
  constructor
  · rintro ⟨x, hx, hgen⟩
    cases x <;> cases hgen
    exact hx
  · intro h
    exact ⟨_, h, rfl⟩

theorem nodup_existingWalGens (dir : DirPath) : (s.existingWalGens dir).Nodup :=
  (mergeSort_perm ..).nodup_iff.mpr (nodup_dedup _)

theorem sorted_existingWalGens (dir : DirPath) : (s.existingWalGens dir).Pairwise (· ≤ ·) := by
  have h (gens : List Nat) : (gens.mergeSort fun a b => decide (a ≤ b)).Pairwise fun a b => decide (a ≤ b) = true :=
    pairwise_mergeSort (fun a b c => by simpa using Nat.le_trans) (fun a b => by simpa using Nat.le_total a b) gens
  exact (h _).imp of_decide_eq_true

theorem lt_next {gens : List Nat} (gen : Nat) (h : gens.Pairwise (· ≤ ·)) (hg : gen ∈ gens) :
    gen < (gens.getLast?.map (· + 1)).getD 0 := by
  cases hl : gens.getLast?
  case none => exact absurd hg (getLast?_eq_none_iff.mp hl ▸ not_mem_nil)
  case some last =>
    obtain ⟨front, rfl⟩ := getLast?_eq_some_iff.mp hl
    rw [pairwise_append] at h
    rcases mem_append.mp hg with hg | hg
    · exact Nat.lt_succ_of_le (h.2.2 gen hg last (mem_singleton_self last))
    · exact Nat.lt_succ_of_le (mem_singleton.mp hg).le

theorem Sound.load (h : s.Sound root) (name : String) : (s.load root name).Sound root := by
  rw [State.load]
  split
  case h_1 => exact h
  case h_2 f hf =>
    have hk := h name f hf
    have hmem (gen : Nat) : gen ∈ s.existingWalGens (cfDir root name) ↔ (cfDir root name, .wal gen) ∈ s.disk :=
      mem_existingWalGens
    have hlt (gen : Nat) := lt_next gen (sorted_existingWalGens (s := s) (cfDir root name))
    have hnodup := nodup_existingWalGens (s := s) (cfDir root name)
    dsimp only
    generalize s.existingWalGens (cfDir root name) = gens at *
    generalize (gens.getLast?.map (· + 1)).getD 0 = next at *
    have hwals : Family.wals { f with walGen := next, pending := gens ++ [next], imm := [] } = gens ++ [next] := rfl
    apply h.set_write
    refine ⟨hk.plain, fun x hx => mem_write.mpr ?_, ?_, ?_⟩
    · rw [Family.files, hwals, map_append, mem_append, mem_append] at hx
      rcases hx with (hx | hx) | hx
      · obtain ⟨gen, hgen, rfl⟩ := mem_map.mp hx
        exact .inr ((hmem gen).mp hgen)
      · exact .inl ⟨rfl, hx⟩
      · exact .inr (hk.files x (mem_append_right _ hx))
    · rw [hwals]
      refine nodup_append.mpr ⟨hnodup, nodup_singleton _, fun gen hgen gen' hgen' => ?_⟩
      rw [mem_singleton] at hgen'
      exact hgen' ▸ (hlt gen hgen).ne
    · intro gen hgen
      rw [hwals, mem_append, mem_singleton] at hgen
      rcases hgen with hgen | rfl
      · exact (hlt gen hgen).le
      · exact le_rfl

theorem Sound.foldl (h : s.Sound root) (hstep : ∀ {s : State}, s.Sound root → ∀ name, (step s name).Sound root)
    (names : List String) :
    (names.foldl step s).Sound root := by
  induction names generalizing s
  case nil => exact h
  case cons name rest ih => exact ih (hstep h name)

theorem Sound.exec (h : s.Sound root) (he : e.Plain) : (s.exec root e).Sound root := by
  cases e
  case create names => exact h.create he
  case rotate name => exact h.rotate name
  case flush name hasVlog stored => exact h.flush name hasVlog stored
  case drop name => exact h.drop name
  case clear name => exact h.clear name
  case reopen => exact (h.foldl Sound.load _).foldl Sound.sweep _

theorem sound_init : init.Sound root := by
  intro name f hf
  cases hf

theorem Sound.of_reachable (h : Reachable init (PlainStep root) s) : s.Sound root := by
  apply h.invariant sound_init
  rintro s s' ⟨e, he, rfl⟩ hs
  exact hs.exec he

section

variable {name name' : String} {f : Family} {p : DirPath × File}

theorem Sound.mem_removeDirAll (h : s.Sound root) (hf : s.family name = some f) (hf' : s.family name' = some f')
    (hne : name ≠ name') (hp : p ∈ s.disk) (hdir : cfDir root name' <+: p.1) :
    p ∈ (s.removeDirAll (cfDir root name)).disk :=
  State.mem_removeDirAll.mpr ⟨hp, (h.apart hf hf' hne).not_below hdir⟩

theorem Sound.mem_drop (h : s.Sound root) (hf' : s.family name' = some f') (hne : name ≠ name') (hp : p ∈ s.disk)
    (hdir : cfDir root name' <+: p.1) : p ∈ (s.dropColumnFamily root name).disk := by
  rw [dropColumnFamily]
  split
  case h_1 => exact hp
  case h_2 f hf => exact h.mem_removeDirAll hf hf' hne hp hdir

theorem Sound.mem_clear (h : s.Sound root) (hf' : s.family name' = some f') (hne : name ≠ name') (hp : p ∈ s.disk)
    (hdir : cfDir root name' <+: p.1) : p ∈ (s.clearColumnFamily root name).disk := by
  rw [clearColumnFamily]
  split
  case h_1 => exact hp
  case h_2 f hf => exact mem_write.mpr (.inr (h.mem_removeDirAll hf hf' hne hp hdir))

theorem Sound.mem_sweep (h : s.Sound root) (hf' : s.family name' = some f') (hne : name ≠ name') (hp : p ∈ s.disk)
    (hdir : cfDir root name' <+: p.1) : p ∈ (s.sweep root name).disk := by
  rw [State.sweep]
  split
  case h_1 => exact hp
  case h_2 f hf =>
    refine mem_unlink.mpr ⟨hp, fun heq => ?_⟩
    exact absurd (heq ▸ hdir) (h.apart hf hf' hne).2

end

-- Families whose names are plain keep to themselves: their directories lie in the database's, apart
-- from each other, the files of each exist, and no removal of one reaches what lies in another's.
theorem families_apart (h : Reachable init (PlainStep root) s) :
    (∀ name ∈ s.cfs, root <+: cfDir root name ∧ cfDir root name ≠ root) ∧
    (∀ name ∈ s.cfs, ∀ name' ∈ s.cfs, name ≠ name' → (cfDir root name).Apart (cfDir root name')) ∧
    (∀ name ∈ s.cfs, s.filesOf root name ⊆ s.disk) ∧
    ∀ name, ∀ name' ∈ s.cfs, name ≠ name' → ∀ p ∈ s.disk, cfDir root name' <+: p.1 →
      p ∈ (s.dropColumnFamily root name).disk ∧ p ∈ (s.clearColumnFamily root name).disk ∧
        p ∈ (s.sweep root name).disk := by
  have hs := Sound.of_reachable h
  have hfam {name : String} (hn : name ∈ s.cfs) : ∃ f, s.family name = some f :=
    Option.isSome_iff_exists.mp (AList.lookup_isSome.mpr hn)
  refine ⟨fun name hn => ?_, fun name hn name' hn' hne => ?_, fun name hn => ?_, fun name name' hn' hne p hp hdir => ?_⟩
  · obtain ⟨f, hf⟩ := hfam hn
    rw [cfDir_eq (hs name f hf).plain]
    exact ⟨prefix_append .., by simp⟩
  · obtain ⟨f, hf⟩ := hfam hn
    obtain ⟨f', hf'⟩ := hfam hn'
    exact hs.apart hf hf' hne
  · obtain ⟨f, hf⟩ := hfam hn
    rw [filesOf, hf]
    intro p hp
    obtain ⟨x, hx, rfl⟩ := mem_map.mp hp
    exact (hs name f hf).files x hx
  · obtain ⟨f', hf'⟩ := hfam hn'
    exact ⟨hs.mem_drop hf' hne hp hdir, hs.mem_clear hf' hne hp hdir, hs.mem_sweep hf' hne hp hdir⟩

def twoFamilies : List Event :=
  [.create ["a", "b"], .rotate "a", .flush "a" (some true) true]

theorem families_apart_two :
    (twoFamilies.foldl (exec ["db"]) init).filesOf ["db"] "a" =
      [(["db", "cf-a"], .wal 1), (["db", "cf-a"], .klog 1), (["db", "cf-a"], .vlog 1)] ∧
    (twoFamilies.foldl (exec ["db"]) init).filesOf ["db"] "a" ⊆
      ((twoFamilies.foldl (exec ["db"]) init).dropColumnFamily ["db"] "b").disk := by
  have hrun : Reachable init (PlainStep ["db"]) (twoFamilies.foldl (exec ["db"]) init) :=
    Reachable.start.foldl (P := fun _ e => e.Plain) (fun _ e he => ⟨e, he, rfl⟩) (by decide +kernel)
  have ha : "a" ∈ (twoFamilies.foldl (exec ["db"]) init).cfs := by decide +kernel
  have hfiles : (twoFamilies.foldl (exec ["db"]) init).filesOf ["db"] "a" =
      [(["db", "cf-a"], .wal 1), (["db", "cf-a"], .klog 1), (["db", "cf-a"], .vlog 1)] := by decide +kernel
  obtain ⟨-, -, hdisk, hkeep⟩ := families_apart hrun
  refine ⟨hfiles, fun p hp => (hkeep "b" "a" ha (by decide) p (hdisk "a" ha hp) ?_).1⟩
  rw [hfiles] at hp
  revert p
  decide +kernel

-- A slash in a name: the second family lies in the first one's directory and goes with it, another
-- shares it, and a third leaves the database's.
theorem nested_family_removed :
    ValidName "a/b" ∧ ValidName "a/." ∧ ValidName "/../.." ∧
    "a/b" ∈ ([.create ["a", "a/b"], .drop "a"].foldl (exec ["db"]) init).cfs ∧
    ¬([.create ["a", "a/b"], .drop "a"].foldl (exec ["db"]) init).filesOf ["db"] "a/b" ⊆
      ([.create ["a", "a/b"], .drop "a"].foldl (exec ["db"]) init).disk ∧
    cfDir ["db"] "a/." = cfDir ["db"] "a" ∧ cfDir ["db"] "/../.." = [] := by
  decide +kernel

end State

end OndaDb.Dirs

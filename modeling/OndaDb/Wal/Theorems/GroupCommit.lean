import OndaDb.Wal.GroupCommit

namespace OndaDb.GroupCommit

open Wal List

def Outcome.code : Outcome → Int
  | closed => -10
  | torn _ _ => -4
  | unsynced => -4
  | synced => 0

theorem Outcome.code_eq_zero {o : Outcome} : o.code = 0 ↔ o = .synced := by
  cases o <;> simp [code]

theorem codeToResult_eq_ok : codeToResult code = .ok () ↔ code = 0 := by
  simp [codeToResult]

theorem writeGroup_all (file : Bytes) (bufs : List Bytes) (h : ∀ i n, fault = some (i, n) → bufs.length ≤ i) :
    Log.writeGroup file bufs fault = (file ++ bufs.flatten, .ok ()) := by
  induction bufs generalizing file fault
  case nil => simp [Log.writeGroup]
  case cons buf bufs ih =>
    cases fault
    case none => simp [Log.writeGroup, ih]
    case some failing =>
      obtain ⟨_ | i, n⟩ := failing
      · exact absurd (h 0 n rfl) (by simp)
      · rw [Log.writeGroup, ih _ fun j m hj => ?_]
        · simp
        · obtain ⟨rfl, rfl⟩ := Prod.mk.injEq .. ▸ Option.some.inj hj
          exact Nat.le_of_succ_le_succ (h _ _ rfl)

theorem writeGroup_torn (file : Bytes) (bufs : List Bytes) (h : i < bufs.length) (n : Nat) :
    Log.writeGroup file bufs (some (i, n)) =
      (file ++ (bufs.take i ++ (bufs[i]?.map (·.take n)).toList).flatten, .error writeFailed) := by
  induction bufs generalizing file i
  case nil => exact absurd h (by simp)
  case cons buf bufs ih =>
    cases i
    case zero => simp [Log.writeGroup, writeAll]
    case succ i =>
      rw [Log.writeGroup, ih _ (Nat.lt_of_succ_lt_succ h)]
      simp

theorem flushGroup_outcome {s : State} {file : Bytes} (h : s.wal.stripes = [⟨file, handle⟩]) (batch : List Req)
    (luck : Luck) :
    let flushed := s.wal.flushGroup (batch.map Req.buf) luck.fault luck.syncFails
    let g : Group := ⟨batch, s.outcome batch luck⟩
    flushed.1.stripes = [⟨file ++ g.wrote.flatten, handle⟩] ∧
      resultToCode flushed.2 = g.outcome.code := by
  have h₀ : s.wal.stripes[(0 : Nat)]? = some ⟨file, handle⟩ := by rw [h]; rfl
  cases handle
  case none => simp [Log.flushGroup, State.outcome, h, Group.wrote, resultToCode, Outcome.code,
    walClosed, OndaError.code]
  case some pending =>
    by_cases hf : ∃ i n, luck.fault = some (i, n) ∧ i < batch.length
    case pos =>
      obtain ⟨i, n, hf, hi⟩ := hf
      have hw := writeGroup_torn file (batch.map Req.buf) (by simpa using hi) n
      simp [Log.flushGroup, State.outcome, h, hf, hi, hw, Log.setStripe, Group.wrote, Group.bufs,
        resultToCode, Outcome.code, writeFailed, OndaError.code]
    have hw := writeGroup_all file (batch.map Req.buf)
      fun i n (hi : luck.fault = some (i, n)) => by simpa using fun h => hf ⟨i, n, hi, h⟩
    have ho : s.outcome batch luck = if luck.syncFails then .unsynced else .synced := by
      cases hfault : luck.fault
      case none => simp [State.outcome, h₀, hfault]
      case some failing =>
        have hi : ¬ failing.1 < batch.length := fun hi => hf ⟨_, _, hfault, hi⟩
        simp [State.outcome, h₀, hfault, hi]
    cases hs : luck.syncFails
    all_goals simp [Log.flushGroup, h, hw, ho, hs, Log.setStripe, Log.poison, Group.wrote,
      Group.bufs, resultToCode, Outcome.code, OndaError.code]

-- What a committer in this phase has left to do, beside the requests of the queue.
def Phase.left : Phase → Nat
  | idle => 0
  | top => 2
  | recheck => 0
  | flush batch => 2 * batch.length + 5
  | send rest _ => rest.length + 4
  | leave => 3
  | recv => 1
  | done _ => 0

namespace State

def ofLeader (phase : Nat → Phase) (f : Phase → List Req) : Option Nat → List Req
  | none => []
  | some k => f (phase k)

theorem goto_phase_self (s : State) (i : Nat) (p : Phase) : (s.goto i p).phase i = p :=
  Function.update_self ..

theorem goto_phase_of_ne (s : State) (h : j ≠ i) (p : Phase) :
    (s.goto i p).phase j = s.phase j :=
  Function.update_of_ne h ..

theorem ofLeader_update_self (phase : Nat → Phase) (f : Phase → List Req) (k : Nat) (p : Phase) :
    ofLeader (Function.update phase k p) f (some k) = f p := by
  rw [ofLeader, Function.update_self]

theorem ofLeader_update_of_ne (phase : Nat → Phase) (f : Phase → List Req) (h : lead ≠ some i) (p : Phase) :
    ofLeader (Function.update phase i p) f lead = ofLeader phase f lead := by
  cases lead
  case none => rfl
  case some k => rw [ofLeader, Function.update_of_ne fun he => h (congrArg some he), ofLeader]

def ids (s : State) : List Nat :=
  s.submitted.map Req.res

structure Fits (s : State) (lead : Option Nat) (i : Nat) (p : Phase) : Prop where
  known : p.fresh = false ↔ i ∈ s.ids
  leads : p.leads = true ↔ lead = some i
  looks : p ≠ .recheck
  due : p = .top → s.queue ≠ []
  fresh : p.fresh = true → s.sent i = []
  sends : ∀ rest code, p = .send rest code → ∃ g ∈ s.groups, rest <:+ g.reqs ∧ code = g.outcome.code
  done : ∀ res, p = .done res → ∃ code, s.sent i = [code] ∧ res = codeToResult code

-- Every committer was queued once. What was queued is in the queue, in the batch of the leader or in
-- one group; the committers without a result are those whose request the queue or the leader has.
structure Sound (header : Bytes) (s : State) (lead : Option Nat) : Prop where
  nodup : s.ids.Nodup
  fits : ∀ i, s.Fits lead i (s.phase i)
  flag : s.flushing = lead.isSome
  served : lead = none → s.queue = []
  once : (s.queue ++ ofLeader s.phase Phase.unwritten lead ++ s.groups.flatMap Group.reqs).Perm s.submitted
  silent : ∀ r ∈ s.queue ++ ofLeader s.phase Phase.unsent lead, s.sent r.res = []
  told : ∀ r ∈ s.submitted, r ∈ s.queue ++ ofLeader s.phase Phase.unsent lead ∨
    ∃ g ∈ s.groups, r ∈ g.reqs ∧ s.sent r.res = [g.outcome.code]
  stored : ∃ handle, s.wal.stripes = [⟨header ++ (s.groups.flatMap Group.wrote).flatten, handle⟩] ∧
    handle.getD [] = []

theorem Fits.keep {s s' : State} {i : Nat} {p : Phase} (h : s.Fits lead i p) (hids : i ∈ s'.ids ↔ i ∈ s.ids)
    (hlead : lead' = some i ↔ lead = some i) (hdue : p = .top → s'.queue ≠ [])
    (hsent : p.fresh = true ∨ p.returned = true → s'.sent i = s.sent i)
    (hgroups : ∀ g ∈ s.groups, g ∈ s'.groups) : s'.Fits lead' i p where
  known := h.known.trans hids.symm
  leads := h.leads.trans hlead.symm
  __ := h
  due := hdue
  fresh := fun hp => (hsent (.inl hp)).trans (h.fresh hp)
  sends := by
    intro rest code hp
    obtain ⟨g, hg, hrest⟩ := h.sends rest code hp
    exact ⟨g, hgroups g hg, hrest⟩
  done := by
    intro res hp
    obtain ⟨code, hcode, hres⟩ := h.done res hp
    exact ⟨code, (hsent (.inr (by rw [hp]; rfl))).trans hcode, hres⟩

namespace Sound

variable {header : Bytes} {s : State} {lead : Option Nat}

theorem of_start {wal : Log} (h : wal.stripes = [⟨header, some []⟩]) : Sound header (.start wal) none where
  nodup := by simp [State.start, ids]
  fits := fun i => by constructor <;> simp [State.start, ids, Phase.fresh, Phase.leads]
  flag := rfl
  served := fun _ => rfl
  once := by simp [State.start, ofLeader]
  silent := by simp [State.start, ofLeader]
  told := by simp [State.start]
  stored := ⟨some [], by simpa [State.start] using h⟩

theorem leader_mem (h : Sound header s (some k)) : k ∈ s.ids := by
  have hl := (h.fits k).leads.mpr rfl
  refine (h.fits k).known.mp ?_
  cases hp : s.phase k <;> simp [hp, Phase.leads, Phase.fresh] at hl ⊢

theorem fits_goto {s' : State} {i : Nat} {p : Phase} (hi : s'.Fits lead i p)
    (hj : ∀ j, j ≠ i → s'.Fits lead j (s'.phase j)) (j : Nat) :
    (s'.goto i p).Fits lead j ((s'.goto i p).phase j) := by
  by_cases h : j = i
  · subst h
    rw [goto_phase_self]
    exact hi.keep .rfl .rfl hi.due (fun _ => rfl) (fun _ h => h)
  · rw [goto_phase_of_ne s' h]
    exact (hj j h).keep .rfl .rfl (hj j h).due (fun _ => rfl) (fun _ h => h)

theorem enqueue (h : Sound header s lead) {i : Nat} (hi : (s.phase i).fresh = true) {buf : Bytes}
    {p : Phase} {lead' : Option Nat} (hp : p = .recv ∧ lead' = lead ∨ p = .top ∧ lead = none ∧ lead' = some i)
    (hl : lead' ≠ none) :
    Sound header (State.goto { s with
      queue := s.queue ++ [⟨buf, i⟩], submitted := s.submitted ++ [⟨buf, i⟩], flushing := true } i p)
      lead' := by
  have hnew : i ∉ s.ids := fun hm => by simp [(h.fits i).known.mpr hm] at hi
  have hlead : lead ≠ some i := fun he => by
    have hl := (h.fits i).leads.mpr he
    cases hp : s.phase i <;> simp [hp, Phase.fresh, Phase.leads] at hi hl
  have hne : ∀ r ∈ s.submitted, r.res ≠ i := fun r hr he => hnew (he ▸ mem_map_of_mem hr)
  have hof : ∀ f : Phase → List Req, f .top = [] →
      ofLeader (Function.update s.phase i p) f lead' = ofLeader s.phase f lead := by
    intro f hf
    obtain ⟨rfl, rfl⟩ | ⟨rfl, rfl, rfl⟩ := hp
    · exact ofLeader_update_of_ne s.phase f hlead .recv
    · rw [ofLeader_update_self, hf, ofLeader]
  constructor
  case nodup =>
    have hd : ∀ a ∈ s.ids, ¬ a = i := fun a ha he => hnew (he ▸ ha)
    have hids : (s.ids ++ [i]).Nodup := by simpa [nodup_append, h.nodup] using hd
    simpa [State.goto, State.ids] using hids
  case fits =>
    apply fits_goto
    case hi =>
      obtain ⟨rfl, rfl⟩ | ⟨rfl, rfl, rfl⟩ := hp
      all_goals constructor <;> simp [Phase.fresh, Phase.leads, State.ids, hlead]
    case hj =>
      intro j hj
      refine (h.fits j).keep (by simp [State.ids, hj]) ?_ (by simp) (fun _ => rfl) (fun _ hg => hg)
      obtain ⟨rfl, rfl⟩ | ⟨rfl, rfl, rfl⟩ := hp
      · exact .rfl
      · simp [Ne.symm hj]
  case flag => exact (Option.isSome_iff_ne_none.mpr hl).symm
  case served => exact fun hn => absurd hn hl
  case once =>
    dsimp only [State.goto]
    rw [hof _ rfl]
    refine perm_iff_count.mpr fun a => ?_
    have hc := h.once.count_eq a
    simp only [count_append] at hc ⊢
    omega
  case silent =>
    dsimp only [State.goto]
    rw [hof _ rfl]
    intro r hr
    simp only [append_assoc, mem_append, mem_singleton] at hr
    obtain hr | rfl | hr := hr
    · exact h.silent r (mem_append_left _ hr)
    · exact (h.fits i).fresh hi
    · exact h.silent r (mem_append_right _ hr)
  case told =>
    dsimp only [State.goto]
    rw [hof _ rfl]
    intro r hr
    obtain hr | hr := mem_append.mp hr
    · refine (h.told r hr).imp_left fun hm => ?_
      simp only [mem_append] at hm ⊢
      exact hm.imp_left .inl
    · exact .inl (by simp at hr; simp [hr])
  case stored => exact h.stored

theorem submit (h : Sound header s lead) (hi : (s.phase i).fresh = true) (buf : Bytes) :
    ∃ lead', Sound header (s.submit i buf) lead' := by
  have hflag := h.flag
  cases lead
  case some k =>
    rw [Option.isSome_some] at hflag
    refine ⟨some k, ?_⟩
    simp only [State.submit, hflag, ite_true]
    exact h.enqueue hi (.inl ⟨rfl, rfl⟩) nofun
  case none =>
    rw [Option.isSome_none] at hflag
    refine ⟨some i, ?_⟩
    simp only [State.submit, hflag, Bool.false_eq_true, ite_false]
    exact h.enqueue hi (.inr ⟨rfl, rfl, rfl⟩) nofun

theorem fits_leader {k : Nat} (h : Sound header s (some k)) {s' : State} {p : Phase} {lead' : Option Nat}
    (hphase : s'.phase = s.phase) (hids : s'.submitted = s.submitted)
    (hl : lead' = some k ∨ lead' = none) (hp : s'.Fits lead' k p)
    (hsent : ∀ j, (s.phase j).fresh = true ∨ (s.phase j).returned = true → s'.sent j = s.sent j)
    (hgroups : ∀ g ∈ s.groups, g ∈ s'.groups) (j : Nat) :
    (s'.goto k p).Fits lead' j ((s'.goto k p).phase j) := by
  apply fits_goto hp
  intro j hj
  have hk : ¬ some k = some j := fun he => hj (Option.some.inj he).symm
  rw [hphase]
  apply (h.fits j).keep
  case hids => rw [State.ids, hids, ← State.ids]
  case hlead =>
    obtain rfl | rfl := hl
    · exact .rfl
    · exact iff_of_false nofun hk
  case hdue => exact fun ht => absurd ((h.fits j).leads.mp (by rw [ht]; rfl)) hk
  case hsent => exact hsent j
  case hgroups => exact hgroups

theorem move {k : Nat} (h : Sound header s (some k)) {p : Phase}
    (hp : p = .leave ∧ lead' = some k ∨ p = .top ∧ s.queue ≠ [] ∧ lead' = some k ∨ p = .recv ∧ s.queue = [] ∧ lead' = none)
    (hw : (s.phase k).unwritten = []) (hu : (s.phase k).unsent = []) :
    Sound header (State.goto { s with flushing := lead'.isSome } k p) lead' := by
  have hids := h.leader_mem
  have hof : ∀ f : Phase → List Req, f .leave = [] → f .top = [] → f (s.phase k) = [] →
      ofLeader (Function.update s.phase k p) f lead' = ofLeader s.phase f (some k) := by
    intro f hl ht hf
    obtain ⟨rfl, rfl⟩ | ⟨rfl, _, rfl⟩ | ⟨rfl, _, rfl⟩ := hp
    · rw [ofLeader_update_self, hl, ofLeader, hf]
    · rw [ofLeader_update_self, ht, ofLeader, hf]
    · rw [ofLeader, ofLeader, hf]
  constructor
  case nodup => exact h.nodup
  case fits =>
    apply h.fits_leader
    case hphase => rfl
    case hids => rfl
    case hl => obtain ⟨_, hl⟩ | ⟨_, _, hl⟩ | ⟨_, _, hl⟩ := hp <;> simp [hl]
    case hp =>
      obtain ⟨rfl, rfl⟩ | ⟨rfl, hq, rfl⟩ | ⟨rfl, hq, rfl⟩ := hp
      all_goals constructor <;> simp_all [Phase.fresh, Phase.leads, State.ids]
    case hsent => exact fun _ _ => rfl
    case hgroups => exact fun _ hg => hg
  case flag => rfl
  case served =>
    intro hn
    obtain ⟨_, rfl⟩ | ⟨_, _, rfl⟩ | ⟨_, hq, _⟩ := hp
    · exact absurd hn nofun
    · exact absurd hn nofun
    · exact hq
  case once =>
    dsimp only [State.goto]
    rw [hof _ rfl rfl hw]
    exact h.once
  case silent =>
    dsimp only [State.goto]
    rw [hof _ rfl rfl hu]
    exact h.silent
  case told =>
    dsimp only [State.goto]
    rw [hof _ rfl rfl hu]
    exact h.told
  case stored => exact h.stored

theorem run_top {k : Nat} (h : Sound header s (some k)) (hp : s.phase k = .top) (luck : Luck) :
    Sound header (s.run k luck) (some k) := by
  have hids := h.leader_mem
  rcases hq : s.queue with _ | ⟨r, queue⟩
  · exact absurd hq ((h.fits k).due hp)
  · have hw : ofLeader s.phase Phase.unwritten (some k) = [] := by rw [ofLeader, hp]; rfl
    have hu : ofLeader s.phase Phase.unsent (some k) = [] := by rw [ofLeader, hp]; rfl
    have hrun : s.run k luck = State.goto { s with queue := [] } k (.flush (r :: queue)) := by
      simp [State.run, hp, hq]
    rw [hrun]
    constructor
    case nodup => exact h.nodup
    case fits =>
      apply h.fits_leader
      case hphase => rfl
      case hids => rfl
      case hl => exact .inl rfl
      case hp => constructor <;> simp [Phase.fresh, Phase.leads]; exact hids
      case hsent => exact fun _ _ => rfl
      case hgroups => exact fun _ hg => hg
    case flag => exact h.flag
    case served => exact nofun
    case once =>
      dsimp only [State.goto]
      rw [ofLeader_update_self]
      have ho := h.once
      rw [hw, hq] at ho
      simpa [Phase.unwritten] using ho
    case silent =>
      dsimp only [State.goto]
      rw [ofLeader_update_self]
      have hs := h.silent
      rw [hu, hq] at hs
      simpa [Phase.unsent] using hs
    case told =>
      dsimp only [State.goto]
      rw [ofLeader_update_self]
      have ht := h.told
      rw [hu, hq] at ht
      simpa [Phase.unsent] using ht
    case stored => exact h.stored

theorem run_flush {k : Nat} (h : Sound header s (some k)) (hp : s.phase k = .flush batch) (luck : Luck) :
    Sound header (s.run k luck) (some k) := by
  have hids := h.leader_mem
  have hw : ofLeader s.phase Phase.unwritten (some k) = batch := by rw [ofLeader, hp]; rfl
  have hu : ofLeader s.phase Phase.unsent (some k) = batch := by rw [ofLeader, hp]; rfl
  obtain ⟨handle, hst, hh⟩ := h.stored
  obtain ⟨hfile, hcode⟩ := flushGroup_outcome hst batch luck
  simp only [State.run, hp]
  constructor
  case nodup => exact h.nodup
  case fits =>
    apply h.fits_leader
    case hphase => rfl
    case hids => rfl
    case hl => exact .inl rfl
    case hp =>
      constructor <;> simp [Phase.fresh, Phase.leads, -mem_append]
      · exact hids
      · exact ⟨⟨batch, s.outcome batch luck⟩, by simp, suffix_rfl, hcode⟩
    case hsent => exact fun _ _ => rfl
    case hgroups => exact fun _ hg => mem_append_left _ hg
  case flag => exact h.flag
  case served => exact nofun
  case once =>
    dsimp only [State.goto]
    rw [ofLeader_update_self]
    have ho := h.once
    rw [hw] at ho
    refine List.Perm.trans ?_ ho
    refine perm_iff_count.mpr fun a => ?_
    simp [Phase.unwritten, count_append, flatMap_append]
    omega
  case silent =>
    dsimp only [State.goto]
    rw [ofLeader_update_self]
    have hs := h.silent
    rw [hu] at hs
    exact hs
  case told =>
    dsimp only [State.goto]
    rw [ofLeader_update_self]
    intro r hr
    have ht := h.told r hr
    rw [hu] at ht
    refine ht.imp_right fun hg => ?_
    obtain ⟨g, hg, hr⟩ := hg
    exact ⟨g, mem_append_left _ hg, hr⟩
  case stored =>
    refine ⟨handle, ?_, hh⟩
    dsimp only [State.goto]
    rw [hfile]
    simp

theorem goto_flushing (hb : s.flushing = b) (i : Nat) (p : Phase) :
    s.goto i p = State.goto { s with flushing := b } i p := by
  subst hb
  rfl

theorem run_send_nil (h : Sound header s (some k)) (hp : s.phase k = .send [] code) (luck : Luck) :
    Sound header (s.run k luck) (some k) := by
  have hm := h.move (.inl ⟨rfl, rfl⟩) (by rw [hp]; rfl) (by rw [hp]; rfl)
  simp only [State.run, hp]
  rw [goto_flushing h.flag]
  exact hm

theorem run_leave (h : Sound header s (some k)) (hp : s.phase k = .leave) (luck : Luck) :
    ∃ lead', Sound header (s.run k luck) lead' := by
  simp only [State.run, hp]
  by_cases hq : s.queue = []
  case pos =>
    rw [if_pos hq]
    exact ⟨none, h.move (.inr (.inr ⟨rfl, hq, rfl⟩)) (by rw [hp]; rfl) (by rw [hp]; rfl)⟩
  rw [if_neg hq, goto_flushing h.flag]
  exact ⟨some k, h.move (.inr (.inl ⟨rfl, hq, rfl⟩)) (by rw [hp]; rfl) (by rw [hp]; rfl)⟩

theorem mem_submitted (h : Sound header s lead) (hg : g ∈ s.groups) (hr : r ∈ g.reqs) :
    r ∈ s.submitted :=
  h.once.mem_iff.mp (mem_append_right _ (mem_flatMap_of_mem hg hr))

theorem nodup_rest (h : Sound header s (some k)) (hp : s.phase k = .send rest code) :
    ((s.queue ++ rest).map Req.res).Nodup := by
  obtain ⟨g, hg, hrest, _⟩ := (h.fits k).sends rest code hp
  have hw : ofLeader s.phase Phase.unwritten (some k) = [] := by rw [ofLeader, hp]; rfl
  have hall := (h.once.map Req.res).nodup_iff.mpr h.nodup
  rw [hw, append_nil] at hall
  have hsub : rest.Sublist (s.groups.flatMap Group.reqs) := by
    rw [flatMap_def]
    exact hrest.sublist.trans (sublist_flatten_of_mem (mem_map_of_mem hg))
  exact hall.sublist (((List.Sublist.refl _).append hsub).map _)

theorem run_send_cons {k : Nat} (h : Sound header s (some k)) {r : Req} {code : Int}
    (hp : s.phase k = .send (r :: rest) code) (luck : Luck) : Sound header (s.run k luck) (some k) := by
  obtain ⟨g, hg, hrest, hcode⟩ := (h.fits k).sends _ code hp
  have hids := h.leader_mem
  have hrg : r ∈ g.reqs := hrest.subset mem_cons_self
  have hr : r ∈ s.submitted := h.mem_submitted hg hrg
  have hw : ofLeader s.phase Phase.unwritten (some k) = [] := by rw [ofLeader, hp]; rfl
  have hu : ofLeader s.phase Phase.unsent (some k) = r :: rest := by rw [ofLeader, hp]; rfl
  have hsr : s.sent r.res = [] := h.silent r (by rw [hu]; simp)
  have hne : ∀ r' ∈ s.queue ++ rest, r'.res ≠ r.res := by
    have hnd := h.nodup_rest hp
    have hperm : (s.queue ++ r :: rest).Perm (r :: (s.queue ++ rest)) := perm_middle
    have hnd' := (hperm.map Req.res).nodup_iff.mp hnd
    rw [map_cons, nodup_cons] at hnd'
    exact fun r' hr' he => hnd'.left (he ▸ mem_map_of_mem hr')
  simp only [State.run, hp]
  constructor
  case nodup => exact h.nodup
  case fits =>
    apply h.fits_leader
    case hphase => rfl
    case hids => rfl
    case hl => exact .inl rfl
    case hp =>
      constructor <;> simp [Phase.fresh, Phase.leads]
      · exact hids
      · exact ⟨g, hg, (suffix_cons r rest).trans hrest, hcode⟩
    case hsent =>
      intro j hj
      refine Function.update_of_ne (fun he => ?_) ..
      subst he
      obtain hj | hj := hj
      · rw [(h.fits _).known.mpr (mem_map_of_mem hr)] at hj
        exact absurd hj nofun
      · cases hpj : s.phase r.res <;> rw [hpj] at hj
        case done res =>
          obtain ⟨c, hc, _⟩ := (h.fits _).done res hpj
          exact absurd (hsr.symm.trans hc) nofun
        all_goals exact absurd hj nofun
    case hgroups => exact fun _ hg => hg
  case flag => exact h.flag
  case served => exact nofun
  case once =>
    dsimp only [State.goto]
    rw [ofLeader_update_self]
    have ho := h.once
    rw [hw] at ho
    exact ho
  case silent =>
    dsimp only [State.goto]
    rw [ofLeader_update_self]
    intro r' hr'
    rw [Function.update_of_ne (hne r' hr')]
    apply h.silent
    rw [hu]
    simp only [Phase.unsent, mem_append] at hr'
    simp only [mem_append, mem_cons]
    exact hr'.imp_right .inr
  case told =>
    dsimp only [State.goto]
    rw [ofLeader_update_self]
    intro r' hr'
    have hnow : r'.res = r.res → r' = r := fun he => inj_on_of_nodup_map h.nodup hr' hr he
    by_cases he : r'.res = r.res
    case pos =>
      refine .inr ⟨g, hg, hnow he ▸ hrg, ?_⟩
      rw [he, Function.update_self, hsr, hcode]
      rfl
    rw [Function.update_of_ne he]
    have ht := h.told r' hr'
    rw [hu] at ht
    refine ht.imp_left fun hm => ?_
    simp only [mem_append, mem_cons] at hm
    simp only [Phase.unsent, mem_append]
    exact hm.imp_right fun hm => hm.resolve_left fun h => he (h ▸ rfl)
  case stored => exact h.stored

theorem sent_of_runnable (h : Sound header s lead) (hp : s.phase i = .recv) (hr : s.Runnable i) :
    ∃ code, s.sent i = [code] := by
  obtain ⟨r, hr', rfl⟩ := mem_map.mp ((h.fits i).known.mp (by rw [hp]; rfl))
  obtain hm | ⟨g, _, _, hs⟩ := h.told r hr'
  · have hnil : s.sent r.res = [] := h.silent r hm
    simp only [Runnable, hp, hnil, ne_eq, not_true_eq_false, false_or] at hr
    refine absurd ?_ hr
    obtain hq | hl := mem_append.mp hm
    · exact .inl ⟨r, hq, rfl⟩
    · cases lead
      case none => exact absurd hl (by simp [ofLeader])
      case some k =>
        obtain ⟨c, hc, rfl⟩ := mem_map.mp h.leader_mem
        exact .inr ⟨c, hc, r, hl, rfl⟩
  · exact ⟨_, hs⟩

theorem run_recv (h : Sound header s lead) {i : Nat} (hp : s.phase i = .recv) (hr : s.Runnable i)
    (luck : Luck) : Sound header (s.run i luck) lead := by
  have hids : i ∈ s.ids := (h.fits i).known.mp (by rw [hp]; rfl)
  have hlead : lead ≠ some i := fun he => by
    have hl := (h.fits i).leads.mpr he
    rw [hp] at hl
    exact absurd hl nofun
  obtain ⟨code, hcode⟩ := h.sent_of_runnable hp hr
  simp only [State.run, hp, hcode]
  constructor
  case nodup => exact h.nodup
  case fits =>
    apply fits_goto
    case hi => constructor <;> simp [Phase.fresh, Phase.leads, hids, hlead, hcode]
    case hj => exact fun j _ => h.fits j
  case flag => exact h.flag
  case served => exact h.served
  case once =>
    dsimp only [State.goto]
    rw [ofLeader_update_of_ne _ _ hlead]
    exact h.once
  case silent =>
    dsimp only [State.goto]
    rw [ofLeader_update_of_ne _ _ hlead]
    exact h.silent
  case told =>
    dsimp only [State.goto]
    rw [ofLeader_update_of_ne _ _ hlead]
    exact h.told
  case stored => exact h.stored

theorem close (h : Sound header s lead) (fault : Fault) : Sound header (s.exec (.close fault)) lead := by
  obtain ⟨handle, hst, hh⟩ := h.stored
  refine { h with fits := fun i => (h.fits i).keep .rfl .rfl (h.fits i).due (fun _ => rfl) (fun _ hg => hg), stored := ?_ }
  refine ⟨none, ?_, rfl⟩
  cases handle
  case none => simp [State.exec, Log.closeStripe, Log.flushStripe, hst, Log.setStripe]
  case some pending =>
    obtain rfl : pending = [] := hh
    simp [State.exec, Log.closeStripe, Log.flushStripe, hst, Log.setStripe]

theorem exec (h : Sound header s lead) (he : s.Enabled e) :
    ∃ lead', Sound header (s.exec e) lead' := by
  cases e
  case submit i buf => exact h.submit he buf
  case close fault => exact ⟨lead, h.close fault⟩
  case run i luck =>
    have hleads := (h.fits i).leads
    cases hp : s.phase i <;> rw [hp] at hleads
    case idle | done =>
      simp [State.Enabled, State.Runnable, hp] at he
    case recheck => exact absurd hp (h.fits i).looks
    case recv => exact ⟨lead, h.run_recv hp he luck⟩
    case top =>
      obtain rfl := hleads.mp rfl
      exact ⟨_, h.run_top hp luck⟩
    case flush batch =>
      obtain rfl := hleads.mp rfl
      exact ⟨_, h.run_flush hp luck⟩
    case send rest code =>
      obtain rfl := hleads.mp rfl
      cases rest
      case nil => exact ⟨_, h.run_send_nil hp luck⟩
      case cons => exact ⟨_, h.run_send_cons hp luck⟩
    case leave =>
      obtain rfl := hleads.mp rfl
      exact h.run_leave hp luck

end Sound

theorem exists_sound {wal : Log} (hw : wal.stripes = [⟨header, some []⟩]) {s : State}
    (h : Reachable (start wal) Step s) : ∃ lead, Sound header s lead := by
  refine h.invariant (I := fun s => ∃ lead, Sound header s lead) ⟨none, .of_start hw⟩ ?_
  rintro s _ ⟨e, he, rfl⟩ ⟨lead, hs⟩
  exact hs.exec he

-- The steps the committers of `s` have left, at most, if no other joins them.
def work (s : State) : Nat :=
  6 * s.queue.length + (s.ids.map fun i => (s.phase i).left).sum

theorem sum_update {l : List Nat} (hl : l.Nodup) {i : Nat} (hi : i ∈ l) (phase : Nat → Phase) (p : Phase) :
    (l.map fun j => (Function.update phase i p j).left).sum + (phase i).left =
      (l.map fun j => (phase j).left).sum + p.left := by
  induction l
  case nil => exact absurd hi (by simp)
  case cons a l ih =>
    rw [nodup_cons] at hl
    simp only [map_cons, sum_cons]
    by_cases ha : i = a
    case pos =>
      subst ha
      have hrest : (l.map fun j => (Function.update phase i p j).left) = l.map fun j => (phase j).left :=
        map_congr_left fun j hj =>
          congrArg Phase.left (Function.update_of_ne (fun (he : j = i) => hl.left (he ▸ hj)) ..)
      rw [hrest, Function.update_self]
      omega
    have hrec := ih hl.right ((mem_cons.mp hi).resolve_left ha)
    rw [Function.update_of_ne (Ne.symm ha)]
    omega

namespace Sound

variable {header : Bytes} {s : State} {lead : Option Nat}

theorem work_goto_lt (h : Sound header s lead) {s' : State} {i : Nat} {p : Phase}
    (hphase : s'.phase = s.phase) (hids : s'.submitted = s.submitted) (hi : i ∈ s.ids)
    (hlt : 6 * s'.queue.length + p.left < 6 * s.queue.length + (s.phase i).left) :
    (s'.goto i p).work < s.work := by
  have hsum := sum_update h.nodup hi s.phase p
  have hl : (s'.goto i p).ids = s.ids := by rw [State.ids, State.goto, hids, ← State.ids]
  simp only [work, hl]
  simp only [State.goto, hphase]
  omega

theorem mem_ids (h : Sound header s lead) (hr : s.Runnable i) : i ∈ s.ids := by
  refine (h.fits i).known.mp ?_
  cases hp : s.phase i <;> simp [Runnable, hp, Phase.fresh] at hr ⊢

theorem work_lt (h : Sound header s lead) {i : Nat} (hr : s.Runnable i) (luck : Luck) :
    (s.run i luck).work < s.work := by
  have hi := h.mem_ids hr
  cases hp : s.phase i
  case idle | done => simp [Runnable, hp] at hr
  case recheck => exact absurd hp (h.fits i).looks
  case top =>
    rcases hq : s.queue with _ | ⟨r, queue⟩
    · exact absurd hq ((h.fits i).due hp)
    · simp only [State.run, hp, hq]
      exact h.work_goto_lt rfl rfl hi (by simp [hp, hq, Phase.left]; omega)
  case flush batch =>
    simp only [State.run, hp]
    exact h.work_goto_lt rfl rfl hi (by simp [hp, Phase.left]; omega)
  case send rest code =>
    cases rest <;> simp only [State.run, hp]
    all_goals exact h.work_goto_lt rfl rfl hi (by simp [hp, Phase.left])
  case leave =>
    simp only [State.run, hp]
    split
    all_goals exact h.work_goto_lt rfl rfl hi (by simp [hp, Phase.left])
  case recv =>
    obtain ⟨code, hcode⟩ := h.sent_of_runnable hp hr
    simp only [State.run, hp, hcode]
    exact h.work_goto_lt rfl rfl hi (by simp [hp, Phase.left])

theorem settled (h : Sound header s lead) (hs : ∀ i, ¬ s.Runnable i) (hi : i ∈ s.ids) :
    (s.phase i).returned = true := by
  have hlead : lead = none := by
    refine Option.eq_none_iff_forall_ne_some.mpr fun k hk => hs k ?_
    subst hk
    have hl := (h.fits k).leads.mpr rfl
    cases hp : s.phase k <;> simp only [hp, Phase.leads, Bool.false_eq_true] at hl <;> simp only [Runnable, hp]
    case send rest code =>
      cases rest
      case nil => trivial
      case cons r rest =>
        refine .inl (h.silent r (mem_append_right _ ?_))
        rw [ofLeader, hp]
        exact mem_cons_self
  obtain ⟨r, hr, rfl⟩ := mem_map.mp hi
  have hsent : s.sent r.res ≠ [] := by
    obtain hm | ⟨g, _, _, hg⟩ := h.told r hr
    · rw [h.served hlead, hlead] at hm
      exact absurd hm (by simp [ofLeader])
    · simp [hg]
  have hfresh := (h.fits r.res).known.mpr hi
  have hleads := (h.fits r.res).leads
  have hrun := hs r.res
  rw [hlead] at hleads
  cases hp : s.phase r.res <;> simp_all [Runnable, Phase.fresh, Phase.leads, Phase.returned]

theorem unwritten_of_not_leads {p : Phase} (h : p.leads = false) : p.unwritten = [] := by
  cases p <;> simp [Phase.leads, Phase.unwritten] at h ⊢

theorem flatMap_unwritten (h : Sound header s lead) :
    s.ids.flatMap (fun i => (s.phase i).unwritten) = ofLeader s.phase Phase.unwritten lead := by
  have hnil : ∀ i, lead ≠ some i → (s.phase i).unwritten = [] := fun i hi =>
    unwritten_of_not_leads (Bool.eq_false_iff.mpr fun hl => hi ((h.fits i).leads.mp hl))
  cases lead
  case none => exact flatMap_eq_nil_iff.mpr fun i _ => hnil i nofun
  case some k =>
    obtain ⟨pre, post, hids⟩ := append_of_mem h.leader_mem
    have hnd := h.nodup
    rw [hids, nodup_append, nodup_cons] at hnd
    have hpre : pre.flatMap (fun i => (s.phase i).unwritten) = [] :=
      flatMap_eq_nil_iff.mpr fun i hi =>
        hnil i fun he => hnd.right.right i hi k mem_cons_self (Option.some.inj he).symm
    have hpost : post.flatMap (fun i => (s.phase i).unwritten) = [] :=
      flatMap_eq_nil_iff.mpr fun i hi =>
        hnil i fun he => hnd.right.left.left (Option.some.inj he ▸ hi)
    rw [hids, flatMap_append, flatMap_cons, hpre, hpost, append_nil, nil_append, ofLeader]

theorem length_le_work (h : Sound header s lead) (runs : List (Nat × Luck))
    (ha : Allowed (fun s r => s.run r.1 r.2) (fun s r => s.Runnable r.1) s runs) :
    runs.length ≤ s.work := by
  induction runs generalizing s lead
  case nil => exact Nat.zero_le _
  case cons r runs ih =>
    obtain ⟨lead', h'⟩ := h.exec (e := .run r.1 r.2) ha.left
    have hlt := h.work_lt ha.left r.2
    have hle := ih h' ha.right
    simp only [length_cons, State.exec] at hle ⊢
    omega

end Sound

-- What group commit owes its committers. A frame waits in the queue, is in the batch of one leader or
-- was part of one group, and the file holds what the groups wrote, in their order; a committer gets
-- one message, and its result is `Ok` if and only if its group was written and synced. If no other
-- committer comes, each returns after finitely many steps, however these are scheduled.
structure Handed (header : Bytes) (s : State) : Prop where
  leader : s.queue ≠ [] → ∃ i ∈ s.ids, (s.phase i).leads = true
  calls : s.ids.Nodup
  once : (s.queue ++ s.ids.flatMap (fun i => (s.phase i).unwritten) ++
    s.groups.flatMap Group.reqs).Perm s.submitted
  written : s.wal.stripes.map Stripe.file = [header ++ (s.groups.flatMap Group.wrote).flatten]
  single : ∀ i, (s.sent i).length ≤ 1
  result : ∀ r ∈ s.submitted, ∀ res, s.phase r.res = .done res →
    ∃ g ∈ s.groups, r ∈ g.reqs ∧ s.sent r.res = [g.outcome.code] ∧ (res = .ok () ↔ g.outcome = .synced)
  bounded : ∀ runs, Allowed (fun s (r : Nat × Luck) => s.run r.1 r.2) (fun s r => s.Runnable r.1) s runs →
    runs.length ≤ s.work
  returns : (∀ i, ¬ s.Runnable i) → ∀ i ∈ s.ids, (s.phase i).returned = true

theorem commit_handed (crc : Bytes → UInt32) (id : SegmentId) (bufferBytes : Nat) {s : State}
    (h : Reachable (start (.open crc .full id bufferBytes)) Step s) :
    s.Handed (encodeSegmentHeader crc id) := by
  have hw : (Log.open crc .full id bufferBytes).stripes = [⟨encodeSegmentHeader crc id, some []⟩] := rfl
  obtain ⟨lead, hs⟩ := exists_sound hw h
  constructor
  case leader =>
    intro hq
    cases lead
    case none => exact absurd (hs.served rfl) hq
    case some k => exact ⟨k, hs.leader_mem, (hs.fits k).leads.mpr rfl⟩
  case calls => exact hs.nodup
  case once =>
    rw [hs.flatMap_unwritten]
    exact hs.once
  case written =>
    obtain ⟨handle, hst, _⟩ := hs.stored
    rw [hst, map_singleton]
  case single =>
    intro i
    by_cases hi : i ∈ s.ids
    case pos =>
      obtain ⟨r, hr, rfl⟩ := mem_map.mp hi
      obtain hm | ⟨g, _, _, hg⟩ := hs.told r hr
      · rw [hs.silent r hm]
        exact Nat.zero_le _
      · rw [hg, length_singleton]
    case neg =>
      have hf : (s.phase i).fresh = true := by
        by_contra hn
        exact hi ((hs.fits i).known.mp (Bool.eq_false_iff.mpr hn))
      rw [(hs.fits i).fresh hf]
      exact Nat.zero_le _
  case result =>
    intro r hr res hp
    obtain ⟨code, hcode, hres⟩ := (hs.fits r.res).done res hp
    obtain hm | ⟨g, hg, hrg, hsent⟩ := hs.told r hr
    · exact absurd ((hs.silent r hm).symm.trans hcode) nofun
    · refine ⟨g, hg, hrg, hsent, ?_⟩
      obtain rfl : code = g.outcome.code := by simpa [hcode] using hsent
      rw [hres, codeToResult_eq_ok, Outcome.code_eq_zero]
  case bounded => exact hs.length_le_work
  case returns => exact fun hn i hi => hs.settled hn hi

-- Two committers join while the first one writes; it writes for them too.
def convoy : List Event :=
  [.submit 0 [1, 2], .run 0 ⟨none, false⟩, .submit 1 [3], .submit 2 [4, 5]] ++
    List.replicate 4 (.run 0 ⟨none, false⟩) ++ [.run 0 ⟨none, true⟩, .run 0 ⟨some (1, 1), false⟩] ++
    List.replicate 4 (.run 0 ⟨none, false⟩) ++ (List.range 3).map (.run · ⟨none, false⟩)

def convoyed : State :=
  convoy.foldl exec (start (.open (fun _ => 0) .full ⟨.perCf, 1⟩ 0))

theorem commit_handed_convoy :
    convoyed.Handed (encodeSegmentHeader (fun _ => 0) ⟨.perCf, 1⟩) ∧
      convoyed.groups.map Group.outcome = [.synced, .torn 1 1] ∧
      (List.range 3).all fun i => (convoyed.phase i).returned := by
  refine ⟨commit_handed (fun _ => 0) ⟨.perCf, 1⟩ 0 ?_, by decide +kernel, by decide +kernel⟩
  exact Reachable.start.foldl (P := Enabled) (fun _ e he => ⟨e, he, rfl⟩) (by decide +kernel)

-- The groups, the batch of the leader and the queue hold the requests in the order in which they came.
def Ordered (s : State) : Prop :=
  s.groups.flatMap Group.reqs ++ s.ids.flatMap (fun i => (s.phase i).unwritten) ++ s.queue = s.submitted

theorem unwritten_update {phase : Nat → Phase} (h : p.unwritten = (phase i).unwritten) (l : List Nat) :
    l.flatMap (fun j => (Function.update phase i p j).unwritten) = l.flatMap fun j => (phase j).unwritten := by
  congr 1
  funext j
  by_cases hj : j = i
  · rw [hj, Function.update_self, h]
  · rw [Function.update_of_ne hj]

theorem Ordered.submit {s : State} (ho : s.Ordered) (hi : (s.phase i).unwritten = []) (buf : Bytes) :
    (s.submit i buf).Ordered := by
  have hcons := congrArg (· ++ [(⟨buf, i⟩ : Req)]) ho
  simp only [State.submit]
  split
  all_goals
    simp only [Ordered, State.goto, State.ids, map_append, flatMap_append]
    rw [unwritten_update (by rw [hi]; rfl), unwritten_update (by rw [hi]; rfl)]
    simpa [State.ids, hi] using hcons

theorem Ordered.run {header : Bytes} {s : State} (ho : s.Ordered) (h : Sound header s lead) (hr : s.Runnable i)
    (luck : Luck) : (s.run i luck).Ordered := by
  have hlead (hl : (s.phase i).leads = true) : lead = some i := (h.fits i).leads.mp hl
  have hsame {s' : State} {p : Phase} (hp : p.unwritten = (s.phase i).unwritten) (hs : s'.phase = s.phase)
      (hq : s'.queue = s.queue) (hg : s'.groups = s.groups) (hids : s'.submitted = s.submitted) :
      (s'.goto i p).Ordered := by
    simp only [Ordered, State.goto, State.ids, hs, hq, hg, hids]
    rw [unwritten_update hp]
    exact ho
  cases hp : s.phase i
  case idle | done => simp [Runnable, hp] at hr
  case recheck => exact absurd hp (h.fits i).looks
  case top =>
    obtain rfl := hlead (by rw [hp]; rfl)
    have h' := h.run_top hp luck
    rw [Ordered, h.flatMap_unwritten] at ho
    rw [Ordered, h'.flatMap_unwritten]
    cases hq : s.queue <;> simp [State.run, hp, hq, ofLeader, State.goto, Phase.unwritten] at ho ⊢ <;> exact ho
  case flush batch =>
    obtain rfl := hlead (by rw [hp]; rfl)
    have h' := h.run_flush hp luck
    rw [Ordered, h.flatMap_unwritten] at ho
    rw [Ordered, h'.flatMap_unwritten]
    simpa [State.run, hp, ofLeader, State.goto, Phase.unwritten] using ho
  case send rest code =>
    cases rest <;> simp only [State.run, hp]
    all_goals exact hsame (by rw [hp]; rfl) rfl rfl rfl rfl
  case leave =>
    simp only [State.run, hp]
    split
    all_goals exact hsame (by rw [hp]; rfl) rfl rfl rfl rfl
  case recv =>
    simp only [State.run, hp]
    split
    all_goals exact hsame (by rw [hp]; rfl) rfl rfl rfl rfl

theorem unwritten_of_fresh {p : Phase} (h : p.fresh = true) : p.unwritten = [] := by
  cases p <;> simp [Phase.fresh, Phase.unwritten] at h ⊢

-- However many leaders take turns, the groups are written in the order in which their committers came:
-- a group that reaches the file holds none that came after one of a later group, or of the queue.
theorem groups_in_order (crc : Bytes → UInt32) (id : SegmentId) (bufferBytes : Nat) {s : State}
    (h : Reachable (start (.open crc .full id bufferBytes)) Step s) :
    s.groups.flatMap Group.reqs ++ s.ids.flatMap (fun i => (s.phase i).unwritten) ++ s.queue = s.submitted := by
  let I (s : State) := (∃ lead, Sound (encodeSegmentHeader crc id) s lead) ∧ s.Ordered
  refine (h.invariant (I := I) ⟨⟨none, .of_start rfl⟩, by simp [Ordered, start, ids]⟩ ?_).right
  rintro s _ ⟨e, he, rfl⟩ ⟨⟨lead, hs⟩, ho⟩
  refine ⟨hs.exec he, ?_⟩
  cases e
  case submit i buf => exact ho.submit (unwritten_of_fresh he) buf
  case run i luck => exact ho.run hs he luck
  case close => exact ho

theorem groups_in_order_convoy :
    Allowed exec Enabled (start (.open (fun _ => 0) .full ⟨.perCf, 1⟩ 0)) convoy ∧
      convoyed.groups.flatMap Group.reqs ++ convoyed.ids.flatMap (fun i => (convoyed.phase i).unwritten) ++
        convoyed.queue = convoyed.submitted := by
  refine ⟨by decide +kernel, groups_in_order (fun _ => 0) ⟨.perCf, 1⟩ 0 ?_⟩
  exact Reachable.start.foldl (P := Enabled) (fun _ e he => ⟨e, he, rfl⟩) (by decide +kernel)

-- A committer whose write fails has its answer, and the file has one byte of its frame.
def tearing : List Event :=
  [.submit 0 [1, 2], .run 0 ⟨none, false⟩, .run 0 ⟨some (0, 1), false⟩] ++
    List.replicate 4 (.run 0 ⟨none, false⟩)

theorem commit_not_whole :
    Allowed exec Enabled (start (.open (fun _ => 0) .full ⟨.perCf, 1⟩ 0)) tearing ∧
      (tearing.foldl exec (start (.open (fun _ => 0) .full ⟨.perCf, 1⟩ 0))).submitted = [⟨[1, 2], 0⟩] ∧
      ((tearing.foldl exec (start (.open (fun _ => 0) .full ⟨.perCf, 1⟩ 0))).phase 0).returned = true ∧
      (tearing.foldl exec (start (.open (fun _ => 0) .full ⟨.perCf, 1⟩ 0))).wal.stripes.map Stripe.file =
        [encodeSegmentHeader (fun _ => 0) ⟨.perCf, 1⟩ ++ [1]] := by
  decide +kernel

end State

end OndaDb.GroupCommit

import Mathlib.Tactic

-- Merging several sorted lists by repeatedly taking the least head. Of equal heads the one in the
-- first list is taken.
namespace KMerge

variable {α : Type} (r : α → α → Prop) [DecidableRel r]

def smallest (its : List (List α)) : Option (Nat × α) :=
  go 0 none its
where
  go (i : Nat) (best : Option (Nat × α)) : List (List α) → Option (Nat × α)
    | [] => best
    | [] :: its => go (i + 1) best its
    | (a :: _) :: its =>
      match best with
      | none => go (i + 1) (some (i, a)) its
      | some (j, b) => go (i + 1) (if r a b then some (i, a) else some (j, b)) its

def merge : Nat → List (List α) → List α
  | 0,        _ => []
  | fuel + 1, its =>
    match smallest r its with
    | none => []
    | some (i, a) => a :: merge fuel (its.modify i List.tail)

def size (its : List (List α)) : Nat :=
  (its.map List.length).sum

def all (its : List (List α)) : List α :=
  merge r (size its) its

end KMerge

-- A strict weak order: elements neither of which is before the other count as equal.
structure StrictWeak (r : α → α → Prop) : Prop where
  asymm : ∀ a b, r a b → ¬r b a
  negTrans : ∀ a b c, ¬r a b → ¬r b c → ¬r a c

theorem StrictWeak.irrefl {r : α → α → Prop} (h : StrictWeak r) (a : α) : ¬r a a :=
  fun hr => h.asymm a a hr hr

namespace KMerge

variable {α : Type} {r : α → α → Prop} [DecidableRel r] (hr : StrictWeak r)
include hr

theorem smallest.go_spec (i : Nat) (best : Option (Nat × α)) (its : List (List α)) :
    (∀ p ∈ best, ∃ q ∈ go r i best its, ¬r p.2 q.2) ∧
    (∀ a t, a :: t ∈ its → ∃ q ∈ go r i best its, ¬r a q.2) ∧
    ∀ q ∈ go r i best its, q ∈ best ∨ ∃ n t, q.1 = i + n ∧ its[n]? = some (q.2 :: t) := by
  induction its generalizing i best
  case nil => exact ⟨fun p hp => ⟨p, hp, hr.irrefl _⟩, by simp, fun q hq => .inl hq⟩
  case cons it its hi =>
    match it with
    | [] =>
      obtain ⟨h₁, h₂, h₃⟩ := hi (i + 1) best
      refine ⟨h₁, fun a t ha => h₂ a t (by simpa using ha), fun q hq => (h₃ q hq).imp_right ?_⟩
      exact fun ⟨n, t, hn, ht⟩ => ⟨n + 1, t, by omega, by simpa using ht⟩
    | a :: t =>
      -- The head joins the competition; the winner of the rest is no worse than either.
      suffices h : ∃ p, go r i best ((a :: t) :: its) = go r (i + 1) (some p) its ∧
          (∀ p' ∈ best, ¬r p'.2 p.2) ∧ ¬r a p.2 ∧ (p ∈ best ∨ p = (i, a)) by
        obtain ⟨p, he, hb, hap, hp⟩ := h
        obtain ⟨h₁, h₂, h₃⟩ := hi (i + 1) (some p)
        obtain ⟨q, hq, hpq⟩ := h₁ p rfl
        rw [he]
        refine ⟨fun p' hp' => ⟨q, hq, hr.negTrans _ _ _ (hb p' hp') hpq⟩, fun b u hb => ?_, fun q hq => ?_⟩
        · rcases List.mem_cons.mp hb with hb | hb
          · cases hb
            exact ⟨q, hq, hr.negTrans _ _ _ hap hpq⟩
          · exact h₂ b u hb
        · rcases h₃ q hq with hq | ⟨n, u, hn, hu⟩
          · cases Option.mem_some.mp hq
            exact hp.imp_right fun hp => ⟨0, t, by simp [hp], by simp [hp]⟩
          · exact .inr ⟨n + 1, u, by omega, by simpa using hu⟩
      match best with
      | none => exact ⟨(i, a), rfl, by simp, hr.irrefl a, .inr rfl⟩
      | some (j, b) =>
        by_cases hab : r a b
        case pos => exact ⟨(i, a), by simp [go, hab], by simpa using hr.asymm a b hab, hr.irrefl a, .inr rfl⟩
        case neg => exact ⟨(j, b), by simp [go, hab], by simpa using hr.irrefl b, hab, .inl rfl⟩

theorem smallest_none (h : smallest r its = none) : its.flatten = [] := by
  have h₂ := smallest.go_spec hr 0 none its |>.2.1
  simp only [List.flatten_eq_nil_iff]
  intro it hit
  match it with
  | [] => rfl
  | a :: t =>
    obtain ⟨q, hq, _⟩ := h₂ a t hit
    simp [smallest] at h
    simp [h] at hq

theorem smallest_some (h : smallest r its = some (i, a)) :
    (∃ t, its[i]? = some (a :: t)) ∧ ∀ b t, b :: t ∈ its → ¬r b a := by
  obtain ⟨_, h₂, h₃⟩ := smallest.go_spec hr 0 none its
  simp only [smallest] at h
  simp only [h, Option.mem_def, Option.some.injEq] at h₂ h₃
  constructor
  · rcases h₃ _ rfl with h | ⟨n, t, hn, ht⟩
    · simp at h
    · exact ⟨t, by simpa [show n = i by omega] using ht⟩
  · intro b t hb
    obtain ⟨q, hq, h⟩ := h₂ b t hb
    cases hq
    exact h

omit [DecidableRel r] hr in
theorem flatten_modify_tail {its : List (List α)} (h : its[i]? = some (a :: t)) :
    (a :: (its.modify i List.tail).flatten).Perm its.flatten := by
  induction its generalizing i
  case nil => simp at h
  case cons it its hi =>
    cases i
    case zero => simp_all
    case succ i =>
      simp only [List.getElem?_cons_succ] at h
      simp only [List.modify_succ_cons, List.flatten_cons]
      exact List.perm_middle.symm.trans ((hi h).append_left it)

theorem merge_perm {its : List (List α)} (h : size its ≤ fuel) :
    (merge r fuel its).Perm its.flatten := by
  have hlen (its : List (List α)) : its.flatten.length = size its := by simp [size]
  induction fuel generalizing its
  case zero =>
    have : its.flatten = [] := List.length_eq_zero_iff.mp (by rw [hlen]; omega)
    simp [merge, this]
  case succ fuel hi =>
    unfold merge
    split
    case h_1 hn => simp [smallest_none hr hn]
    case h_2 i a hs =>
      obtain ⟨⟨t, ht⟩, _⟩ := smallest_some hr hs
      have hp := flatten_modify_tail ht
      have hl := hp.length_eq
      rw [List.length_cons, hlen, hlen] at hl
      exact ((hi (by omega)).cons a).trans hp

theorem mem_of_mem_merge {its : List (List α)} (h : x ∈ merge r fuel its) : x ∈ its.flatten := by
  induction fuel generalizing its
  case zero => simp [merge] at h
  case succ fuel hi =>
    unfold merge at h
    split at h
    case h_1 => simp at h
    case h_2 i a hs =>
      obtain ⟨⟨t, ht⟩, _⟩ := smallest_some hr hs
      exact (flatten_modify_tail ht).mem_iff.mp (List.mem_cons.mpr ((List.mem_cons.mp h).imp_right hi))

omit [DecidableRel r] hr in
theorem sorted_modify_tail {its : List (List α)} (h : ∀ it ∈ its, it.Pairwise (fun a b => ¬r b a)) :
    ∀ it ∈ its.modify i List.tail, it.Pairwise (fun a b => ¬r b a) := by
  intro it hit
  obtain ⟨j, hj⟩ := List.mem_iff_getElem?.mp hit
  rw [List.getElem?_modify] at hj
  obtain ⟨it', hit', he⟩ := Option.map_eq_some_iff.mp hj
  refine (h it' (List.mem_of_getElem? hit')).sublist (he ▸ ?_)
  split
  · exact List.tail_sublist _
  · exact .refl _

theorem merge_sorted {its : List (List α)} (h : ∀ it ∈ its, it.Pairwise (fun a b => ¬r b a)) :
    (merge r fuel its).Pairwise (fun a b => ¬r b a) := by
  induction fuel generalizing its
  case zero => simp [merge]
  case succ fuel hi =>
    unfold merge
    split
    case h_1 => simp
    case h_2 i a hs =>
      obtain ⟨⟨t, ht⟩, hm⟩ := smallest_some hr hs
      have hleast : ∀ b ∈ its.flatten, ¬r b a := by
        intro b hb
        obtain ⟨it, hit, hb⟩ := List.mem_flatten.mp hb
        match it with
        | c :: u =>
          have hc := hm c u hit
          rcases List.mem_cons.mp hb with rfl | hb
          · exact hc
          · exact hr.negTrans _ _ _ (List.pairwise_cons.mp (h _ hit) |>.left b hb) hc
      refine List.pairwise_cons.mpr ⟨fun b hb => hleast b ?_, hi (sorted_modify_tail h)⟩
      exact (flatten_modify_tail ht).mem_iff.mp (List.mem_cons_of_mem _ (mem_of_mem_merge hr hb))

theorem smallest.go_first (h : go r i best its = some q) :
    q ∈ best ∨ ∃ n, q.1 = i + n ∧ (∀ p ∈ best, r q.2 p.2) ∧
      ∀ m < n, ∀ b t, its[m]? = some (b :: t) → r q.2 b := by
  induction its generalizing i best
  case nil => exact .inl h
  case cons it its hi =>
    match it, best with
    | [], best =>
      refine (hi h).imp_right fun ⟨n, hn, hp, hb⟩ => ⟨n + 1, by omega, hp, fun m hm b t hbt => ?_⟩
      cases m
      case zero => simp at hbt
      case succ m => exact hb m (by omega) b t (by simpa using hbt)
    | a :: t, none =>
      refine .inr ?_
      rcases hi h with hq | ⟨n, hn, hp, hb⟩
      · cases Option.mem_some.mp hq
        exact ⟨0, rfl, by simp, by simp⟩
      · refine ⟨n + 1, by omega, by simp, fun m hm b t hbt => ?_⟩
        cases m
        case zero => simp_all
        case succ m => exact hb m (by omega) b t (by simpa using hbt)
    | a :: t, some (j, b) =>
      rw [go] at h
      rcases hi h with hq | ⟨n, hn, hp, hb⟩
      · split at hq
        · cases Option.mem_some.mp hq
          exact .inr ⟨0, rfl, by simpa, by simp⟩
        · exact .inl hq
      · have hq : r q.2 b ∧ r q.2 a := by
          split at hp
          case isTrue hab =>
            have hqa : r q.2 a := hp _ rfl
            exact ⟨by_contra fun hc => hr.negTrans _ _ _ hc (hr.asymm _ _ hab) hqa, hqa⟩
          case isFalse hab =>
            have hqb : r q.2 b := hp _ rfl
            exact ⟨hqb, by_contra fun hc => hr.negTrans _ _ _ hc hab hqb⟩
        refine .inr ⟨n + 1, by omega, by simpa using hq.1, fun m hm c u hcu => ?_⟩
        cases m
        case zero => simp_all
        case succ m => exact hb m (by omega) c u (by simpa using hcu)

theorem smallest_first (h : smallest r its = some (i, a)) (hj : j < i) (hb : its[j]? = some (b :: t)) :
    r a b := by
  rcases smallest.go_first hr h with hq | ⟨n, hn, _, hf⟩
  · simp at hq
  · exact hf j (by omega) b t hb

omit [DecidableRel r] hr in
theorem filter_modify_tail {its : List (List α)} (h : its[i]? = some (a :: t))
    (hn : p a → ∀ j < i, ∀ it, its[j]? = some it → it.filter p = []) :
    its.flatten.filter p = [a].filter p ++ (its.modify i List.tail).flatten.filter p := by
  induction its generalizing i
  case nil => simp at h
  case cons it its hi =>
    cases i
    case zero =>
      cases Option.some.inj h
      simp [← List.filter_append]
    case succ i =>
      simp only [List.getElem?_cons_succ] at h
      rw [List.flatten_cons, List.filter_append, List.modify_succ_cons, List.flatten_cons,
        List.filter_append, hi h fun hpa j hj it' hit => hn hpa (j + 1) (by omega) it' (by simpa)]
      by_cases hpa : p a
      case pos => simp [hn hpa 0 (by omega) it (by simp)]
      case neg => simp [hpa]

theorem merge_filter {its : List (List α)} (h : ∀ it ∈ its, it.Pairwise (fun a b => ¬r b a))
    (hp : ∀ a b, p a → p b → ¬r a b) (hf : size its ≤ fuel) :
    (merge r fuel its).filter p = its.flatten.filter p := by
  have hlen (its : List (List α)) : its.flatten.length = size its := by simp [size]
  induction fuel generalizing its
  case zero =>
    have : its.flatten = [] := List.length_eq_zero_iff.mp (by rw [hlen]; omega)
    simp [merge, this]
  case succ fuel hi =>
    unfold merge
    split
    case h_1 hn => simp [smallest_none hr hn]
    case h_2 i a hs =>
      obtain ⟨⟨t, ht⟩, _⟩ := smallest_some hr hs
      have hl := (flatten_modify_tail ht).length_eq
      rw [List.length_cons, hlen, hlen] at hl
      rw [filter_modify_tail ht, ← hi (sorted_modify_tail h) (by omega), ← List.filter_append, List.singleton_append]
      -- What stands in the lists before the winner is strictly later than it.
      intro hpa j hj it hit
      refine List.filter_eq_nil_iff.mpr fun b hb hpb => ?_
      match it with
      | c :: u =>
        have hac := smallest_first hr hs hj hit
        rcases List.mem_cons.mp hb with rfl | hb
        · exact hp a _ hpa hpb hac
        · have hbc := List.pairwise_cons.mp (h _ (List.mem_of_getElem? hit)) |>.left b hb
          exact hr.negTrans _ _ _ (hp a b hpa hpb) hbc hac

theorem all_perm (its : List (List α)) : (all r its).Perm its.flatten :=
  merge_perm hr le_rfl

theorem all_sorted (h : ∀ it ∈ its, it.Pairwise (fun a b => ¬r b a)) :
    (all r its).Pairwise (fun a b => ¬r b a) :=
  merge_sorted hr h

theorem all_filter (h : ∀ it ∈ its, it.Pairwise (fun a b => ¬r b a)) (hp : ∀ a b, p a → p b → ¬r a b) :
    (all r its).filter p = its.flatten.filter p :=
  merge_filter hr h hp le_rfl

end KMerge

import Mathlib.Data.List.TakeWhile
import Mathlib.Tactic

-- The number of elements before the first one that fails `p`. On a partitioned list this is where
-- a binary search for that element ends.
def List.partitionPoint (p : α → Bool) (l : List α) : Nat :=
  (l.takeWhile p).length

namespace List

theorem partitionPoint_le_length : (l : List α).partitionPoint p ≤ l.length :=
  l.takeWhile_prefix p |>.length_le

theorem getElem?_partitionPoint {l : List α} : l[l.partitionPoint p]? = (l.dropWhile p).head? := by
  induction l <;> simp [partitionPoint, takeWhile, dropWhile]
  case cons a l hi => cases p a <;> simp_all [partitionPoint]

theorem takeWhile_eq_filter {l : List α} (h : l.Pairwise fun a b => p b → p a) :
    l.takeWhile p = l.filter p := by
  induction l
  case nil => rfl
  case cons a l hi =>
    obtain ⟨ha, hl⟩ := pairwise_cons.mp h
    cases hp : p a
    case true => simp [hp, hi hl]
    case false =>
      have : l.filter p = [] := filter_eq_nil_iff.mpr fun b hb hpb => by simp [ha b hb hpb] at hp
      simp [hp, this]

theorem dropWhile_eq_filter_not {l : List α} (h : l.Pairwise fun a b => p b → p a) :
    l.dropWhile p = l.filter (!p ·) := by
  induction l
  case nil => rfl
  case cons a l hi =>
    obtain ⟨ha, hl⟩ := pairwise_cons.mp h
    cases hp : p a
    case true => simp [hp, hi hl]
    case false =>
      have : l.filter (!p ·) = l := filter_eq_self.mpr fun b hb => by
        by_contra hc
        simp [ha b hb (by simpa using hc)] at hp
      simp [hp, this]

theorem append_eq_iff_filter {l xs ys : List α} (hx : ∀ a ∈ xs, ¬p a) (hy : ∀ a ∈ ys, p a) :
    xs ++ ys = l ↔ xs = l.filter (!p ·) ∧ ys = l.filter p ∧ l.Pairwise fun a b => p a → p b := by
  constructor
  case mp =>
    rintro rfl
    have hxs : xs.filter (!p ·) = xs := filter_eq_self.mpr fun a ha => by simpa using hx a ha
    have hys : ys.filter (!p ·) = [] := filter_eq_nil_iff.mpr fun a ha => by simpa using hy a ha
    rw [filter_append, filter_append, hxs, hys, filter_eq_nil_iff.mpr hx, filter_eq_self.mpr hy,
      pairwise_append]
    refine ⟨append_nil _ |>.symm, rfl, ?_, ?_, fun a ha b _ h => absurd h (hx a ha)⟩
    · exact pairwise_of_forall_mem_list fun a ha b _ h => absurd h (hx a ha)
    · exact pairwise_of_forall_mem_list fun a _ b hb _ => hy b hb
  case mpr =>
    rintro ⟨hxs, hys, h⟩
    have hp : l.Pairwise fun a b => !p b → !p a := h.imp fun h => by simpa using mt h
    have hnot : l.dropWhile (!p ·) = l.filter p := by
      rw [dropWhile_eq_filter_not hp]
      simp
    rw [hxs, hys, ← takeWhile_eq_filter hp, ← hnot, takeWhile_append_dropWhile]

theorem any_getElem?_iff_lt_partitionPoint {l : List α} (h : l.Pairwise fun a b => p b → p a) :
    l[i]?.any p ↔ i < l.partitionPoint p := by
  induction l generalizing i
  case nil => simp [partitionPoint]
  case cons a l hi =>
    obtain ⟨ha, hl⟩ := pairwise_cons.mp h
    cases hp : p a
    case true =>
      cases i
      case zero => simp [partitionPoint, takeWhile, hp]
      case succ i => simpa [partitionPoint, takeWhile, hp] using hi hl
    case false =>
      have hn (b : α) (hb : b ∈ l) : ¬p b := fun hpb => by simp [ha b hb hpb] at hp
      simp only [partitionPoint, takeWhile, hp, length_nil, Nat.not_lt_zero, iff_false,
        Bool.not_eq_true, Option.any_eq_false]
      intro b hb
      rcases mem_cons.mp (mem_of_getElem? hb) with rfl | hb
      · exact hp
      · exact Bool.not_eq_true _ ▸ hn b hb

theorem partitionPoint_mono {l : List α} (h : ∀ a ∈ l, p a → q a) :
    l.partitionPoint p ≤ l.partitionPoint q := by
  induction l
  case nil => simp [partitionPoint]
  case cons a l hi =>
    have hl := hi fun b hb => h b (mem_cons_of_mem _ hb)
    cases hp : p a
    case false => simp [partitionPoint, takeWhile, hp]
    case true =>
      have hq : q a := h a (mem_cons_self ..) hp
      simpa [partitionPoint, takeWhile, hp, hq] using hl

def walkUp (p : α → Bool) (l : List α) (hi i : Nat) : Nat :=
  if i < hi ∧ l[i]?.any p then walkUp p l hi (i + 1) else i
termination_by hi - i

def walkDown (p : α → Bool) (l : List α) (lo : Nat) : Nat → Nat
  | 0 => 0
  | i + 1 => if lo < i + 1 ∧ !l[i]?.any p then walkDown p l lo i else i + 1

theorem walkUp_eq {l : List α} (h : l.Pairwise fun a b => p b → p a) (hhi : i ≤ hi) :
    l.walkUp p hi i = max i (min hi (l.partitionPoint p)) := by
  have hp := any_getElem?_iff_lt_partitionPoint h (i := i)
  unfold walkUp
  split
  case isTrue hc =>
    rw [walkUp_eq h hc.1]
    have := hp.mp hc.2
    omega
  case isFalse hc =>
    rw [hp] at hc
    omega
termination_by hi - i

theorem walkDown_eq {l : List α} (h : l.Pairwise fun a b => p b → p a) (hi : lo ≤ i) :
    l.walkDown p lo i = max lo (min i (l.partitionPoint p)) := by
  induction i
  case zero => simp [walkDown, Nat.le_zero.mp hi]
  case succ i ih =>
    have hp := any_getElem?_iff_lt_partitionPoint h (i := i)
    unfold walkDown
    simp only [Bool.not_eq_true', ← Bool.not_eq_true, hp]
    split
    case isTrue hc =>
      rw [ih (by omega)]
      omega
    case isFalse hc => omega

-- Wherever it starts in a window, a walk ends where a search of the window ends.
theorem walkDown_walkUp {l : List α} (h : l.Pairwise fun a b => p b → p a) (hlo : lo ≤ i) (hhi : i ≤ hi) :
    l.walkDown p lo (l.walkUp p hi i) = max lo (min hi (l.partitionPoint p)) := by
  rw [walkUp_eq h hhi, walkDown_eq h (by omega)]
  omega

end List

def Newest (P : Nat → Prop) (r : Nat) : Option Nat → Prop
  | none => ∀ s ≤ r, ¬P s
  | some c => P c ∧ c ≤ r ∧ ∀ s ≤ r, P s → s ≤ c

namespace Newest

variable {P Q : Nat → Prop}

theorem unique (h₁ : Newest P r o₁) (h₂ : Newest P r o₂) : o₁ = o₂ := by
  cases o₁ <;> cases o₂ <;> simp only [Newest, reduceCtorEq, Option.some.injEq] at *
  case none.some => exact h₁ _ h₂.2.1 h₂.1
  case some.none => exact h₂ _ h₁.2.1 h₁.1
  case some.some => exact le_antisymm (h₂.2.2 _ h₁.2.1 h₁.1) (h₁.2.2 _ h₂.2.1 h₂.1)

theorem some_iff (h : Newest P r o) : o = some c ↔ P c ∧ c ≤ r ∧ ∀ s ≤ r, P s → s ≤ c :=
  ⟨fun ho => by subst ho; exact h, fun hc => h.unique (show Newest P r (some c) from hc)⟩

-- There is a number at or below `r` that satisfies `P` and is greater than `s` iff the greatest one
-- is.
theorem exists_gt_iff (h : Newest P r o) : (∃ c ∈ o, s < c) ↔ ∃ c, P c ∧ c ≤ r ∧ s < c := by
  cases o <;> simp only [Newest, Option.mem_def, reduceCtorEq, false_and, exists_false,
    Option.some.injEq, exists_eq_left', false_iff, not_exists, not_and] at *
  case none => exact fun c hp hr => absurd hp (h c hr)
  case some c => exact ⟨fun hs => ⟨c, h.1, h.2.1, hs⟩, fun ⟨_, hp, hr, hs⟩ => hs.trans_le (h.2.2 _ hr hp)⟩

theorem congr_of_le (hp : Newest P r o) (h : ∀ s ≤ r, P s ↔ Q s) : Newest Q r o := by
  cases o <;> simp only [Newest] at *
  case none => exact fun s hs hq => hp s hs (h s hs |>.mpr hq)
  case some c =>
    exact ⟨h c hp.2.1 |>.mp hp.1, hp.2.1, fun s hs hq => hp.2.2 s hs (h s hs |>.mpr hq)⟩

theorem find? {ss : List Nat} (h : ss.Pairwise (· > ·)) : Newest (· ∈ ss) r (ss.find? (· ≤ r)) := by
  induction ss
  case nil => simp [Newest]
  case cons s ss hi =>
    obtain ⟨hs, hss⟩ := List.pairwise_cons.mp h
    by_cases hr : s ≤ r
    case pos =>
      simp only [List.find?_cons, hr, decide_true]
      refine ⟨List.mem_cons_self .., hr, fun t _ ht => ?_⟩
      cases List.mem_cons.mp ht
      case inl ht => exact ht.le
      case inr ht => exact (hs t ht).le
    simp only [List.find?_cons, hr, decide_false]
    exact Newest.congr_of_le (hi hss) fun t ht => by simp [show t ≠ s by omega]

theorem max? {ss : List Nat} (h : ∀ s, s ∈ ss ↔ P s ∧ s ≤ r) : Newest P r ss.max? := by
  cases hm : ss.max?
  case none =>
    intro s hr hs
    have := (h s).mpr ⟨hs, hr⟩
    rw [List.max?_eq_none_iff.mp hm] at this
    cases this
  case some c =>
    obtain ⟨hc, hle⟩ := List.max?_eq_some_iff.mp hm
    exact ⟨((h c).mp hc).1, ((h c).mp hc).2, fun s hr hs => hle s ((h s).mpr ⟨hs, hr⟩)⟩

theorem forall_eq_iff {o₁ o₂ : Nat → Option Nat} (h₁ : ∀ r, Newest P r (o₁ r)) (h₂ : ∀ r, Newest Q r (o₂ r)) :
    (∀ r, o₁ r = o₂ r) ↔ ∀ s, P s ↔ Q s := by
  have self {P : Nat → Prop} {o : Nat → Option Nat} (h : ∀ r, Newest P r (o r)) (s : Nat) :
      o s = some s ↔ P s :=
    (h s).some_iff.trans ⟨And.left, fun hs => ⟨hs, le_rfl, fun _ ht _ => ht⟩⟩
  constructor
  case mp =>
    intro h s
    rw [← self h₁ s, ← self h₂ s, h s]
  case mpr => exact fun h r => (h₁ r).unique ((h₂ r).congr_of_le fun s _ => (h s).symm)

end Newest

def Option.newer : Option Nat → Nat → Option Nat
  | none,   s => some s
  | some b, s => some (max b s)

namespace Newest

variable {P Q : Nat → Prop}

theorem newer (h : Newest P r o) (hr : s ≤ r) : Newest (fun t => P t ∨ t = s) r (o.newer s) := by
  cases o <;> simp only [Newest, Option.newer] at *
  case none =>
    exact ⟨.inr trivial, hr, fun t ht hp => hp.elim (fun hp => absurd hp (h t ht)) (·.le)⟩
  case some b =>
    refine ⟨?_, max_le h.2.1 hr, fun t ht hp => ?_⟩
    · cases max_choice b s <;> simp_all
    · exact hp.elim (fun hp => (h.2.2 t ht hp).trans (le_max_left _ _)) fun hp => hp ▸ le_max_right _ _

theorem merge (hp : Newest P r o₁) (hq : Newest Q r o₂) :
    Newest (fun s => P s ∨ Q s) r (o₂.elim o₁ o₁.newer) := by
  cases o₂
  case none => exact congr_of_le hp fun s hs => by simp [show ¬Q s from hq s hs]
  case some c =>
    obtain ⟨hc, hr, hm⟩ := hq
    have hn := hp.newer hr
    generalize hb : o₁.newer c = b at hn
    cases b
    case none => cases o₁ <;> simp [Option.newer] at hb
    case some b =>
      obtain ⟨h₁, h₂, h₃⟩ := hn
      simp only [Option.elim_some, hb]
      refine ⟨h₁.imp_right (by rintro rfl; exact hc), h₂, fun s hs h => ?_⟩
      exact h.elim (fun h => h₃ s hs (.inl h)) fun h => (hm s hs h).trans (h₃ c hr (.inr rfl))

end Newest

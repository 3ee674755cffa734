import Mathlib.Order.Bounds.Basic
import Mathlib.Data.List.Sort
import Mathlib.Tactic.Cases

-- One entry in the history of a key: an operand that composes with what is older than it, or a
-- base that replaces everything older (`base none` deletes it).
inductive Link (V : Type)
  | operand (x : V)
  | base (b : Option V)

namespace Link

def apply (f : Option V → V → V) : Link V → Option V → Option V
  | operand x, e => some (f e x)
  | base b,    _ => b

@[simp]
theorem apply_operand : (operand x).apply f e = some (f e x) := rfl

@[simp]
theorem apply_base : (base b).apply f e = b := rfl

end Link

abbrev History (V : Type) := Nat → Option (Link V)

namespace History

-- The value the links with a sequence number below `n` make of `e`, oldest link first.
def below (f : Option V → V → V) (H : History V) (e : Option V) : Nat → Option V
  | 0 => e
  | n + 1 => (H n).elim (below f H e n) (·.apply f (below f H e n))

-- The operands down to the newest base, newest first, and that base if there is one.
def chain (H : History V) : Nat → List V × Option (Option V)
  | 0 => ([], none)
  | n + 1 =>
    match H n with
    | none => chain H n
    | some (.operand x) => (x :: (chain H n).1, (chain H n).2)
    | some (.base b) => ([], some b)

def push (c : List V × Option (Option V)) : Link V → List V × Option (Option V)
  | .operand x => (x :: c.1, c.2)
  | .base b => ([], some b)

def layer (G H : History V) : History V :=
  fun s => (G s).or (H s)

variable {f : Option V → V → V} {G H H₁ H₂ : History V} {e : Option V}

@[simp]
theorem below_zero : below f H e 0 = e := rfl

theorem below_succ_none (h : H n = none) : below f H e (n + 1) = below f H e n := by
  simp [below, h]

theorem below_succ_some (h : H n = some l) : below f H e (n + 1) = l.apply f (below f H e n) := by
  simp [below, h]

theorem below_congr (h : ∀ s < n, H₁ s = H₂ s) : below f H₁ e n = below f H₂ e n := by
  induction n
  case zero => rfl
  case succ n hi =>
    simp only [below, h n (Nat.lt_succ_self _), hi fun s hs => h s (Nat.lt_succ_of_lt hs)]

theorem below_congr_above (hm : below f H₁ e₁ m = below f H₂ e₂ m) (hn : m ≤ n)
    (h : ∀ s, m ≤ s → s < n → H₁ s = H₂ s) :
    below f H₁ e₁ n = below f H₂ e₂ n := by
  induction n, hn using Nat.le_induction
  case base => exact hm
  case succ n hn hi =>
    simp only [below, h n hn (Nat.lt_succ_self _), hi fun s h₁ h₂ => h s h₁ (Nat.lt_succ_of_lt h₂)]

theorem below_eq_of_none (hn : m ≤ n) (h : ∀ s, m ≤ s → s < n → H s = none) :
    below f H e n = below f H e m := by
  induction n, hn using Nat.le_induction
  case base => rfl
  case succ n hn hi =>
    rw [below_succ_none (h n hn (Nat.lt_succ_self _)), hi fun s h₁ h₂ => h s h₁ (Nat.lt_succ_of_lt h₂)]

theorem below_base (hs : H s = some (.base b)) (hn : s < n) (h : ∀ t, s < t → t < n → H t = none) :
    below f H e n = b := by
  rw [below_eq_of_none hn fun t h₁ h₂ => h t h₁ h₂, below_succ_some hs, Link.apply_base]

theorem below_eq_none (h : ∀ s < n, ∀ l ∈ H s, l = .base none) : below f H none n = none := by
  induction n
  case zero => rfl
  case succ n hi =>
    replace hi := hi fun s hs => h s (Nat.lt_succ_of_lt hs)
    cases hl : H n
    case none => rw [below_succ_none hl, hi]
    case some l => rw [below_succ_some hl, h n (Nat.lt_succ_self _) l hl, Link.apply_base]

theorem below_eq_none_iff : below f H none n = none ↔
    ∀ t < n, (∀ u, t < u → u < n → H u = none) → ∀ l ∈ H t, l = .base none := by
  induction n
  case zero => simp
  case succ n hi =>
    cases hl : H n
    case none =>
      rw [below_succ_none hl, hi]
      constructor <;> intro h t ht hu
      · rcases Nat.lt_succ_iff_lt_or_eq.mp ht with ht | rfl
        · exact h t ht fun u h₁ h₂ => hu u h₁ (Nat.lt_succ_of_lt h₂)
        · simp [hl]
      · refine h t (Nat.lt_succ_of_lt ht) fun u h₁ h₂ => ?_
        rcases Nat.lt_succ_iff_lt_or_eq.mp h₂ with h₂ | rfl
        · exact hu u h₁ h₂
        · exact hl
    case some l =>
      rw [below_succ_some hl]
      constructor
      · intro h t ht hu
        rcases Nat.lt_succ_iff_lt_or_eq.mp ht with ht | rfl
        · simp [hu n ht (Nat.lt_succ_self _)] at hl
        · cases l <;> simp_all
      · intro h
        rw [h n (Nat.lt_succ_self _) (fun u h₁ h₂ => absurd h₂ (by omega)) l hl, Link.apply_base]

theorem below_congr_base (hs : H₁ s = some (.base b)) (hn : s < n) (h : ∀ t, s ≤ t → t < n → H₁ t = H₂ t) :
    below f H₁ e₁ n = below f H₂ e₂ n := by
  refine below_congr_above (m := s + 1) ?_ hn fun t h₁ h₂ => h t (Nat.le_of_succ_le h₁) h₂
  rw [below_succ_some hs, below_succ_some (h s le_rfl hn ▸ hs), Link.apply_base, Link.apply_base]

theorem below_layer (h : ∀ s t, G s ≠ none → H t ≠ none → t < s) :
    below f (G.layer H) e n = below f G (below f H e n) n := by
  induction n
  case zero => rfl
  case succ n hi =>
    cases hg : G n
    case none =>
      have hg' : ∀ l, below f G l (n + 1) = below f G l n := fun _ => below_succ_none hg
      cases hh : H n
      case none => simp [below, layer, hg, hh, hi]
      case some l =>
        -- No link of `G` is older than the one `H` holds at `n`.
        have hn : ∀ s < n, G s = none := by
          intro s hs
          by_contra hc
          exact absurd (h s n hc (by simp [hh])) (by omega)
        rw [hg', below_eq_of_none (Nat.zero_le _) fun s _ hs => hn s hs]
        rw [below_eq_of_none (Nat.zero_le _) fun s _ hs => hn s hs] at hi
        simp_all [below, layer]
    case some l =>
      have hh : H n = none := by
        by_contra hc
        exact absurd (h n n (by simp [hg]) hc) (Nat.lt_irrefl _)
      have ho : (G.layer H) n = some l := by simp [layer, hg]
      rw [below_succ_some ho, below_succ_some hg, hi, below_succ_none hh]

-- Dropping some deletions from a history is unnoticed iff nothing shows where they were.
theorem below_eq_iff_dropped {D : Nat → Prop} (hD : ∀ s, D s → m ≤ s ∧ H₁ s = some (.base none))
    (h : ∀ s, m ≤ s → ¬D s → H₂ s = H₁ s) (hm : below f H₂ e m = below f H₁ e m) :
    (∀ n, m ≤ n → below f H₂ e n = below f H₁ e n) ↔ ∀ s, D s → below f H₂ e (s + 1) = none := by
  constructor
  case mp =>
    intro he s hs
    obtain ⟨hms, hb⟩ := hD s hs
    rw [he (s + 1) (by omega), below_succ_some hb, Link.apply_base]
  case mpr =>
    intro hs n hn
    induction n, hn using Nat.le_induction
    case base => exact hm
    case succ n hn hi =>
      by_cases hd : D n
      case pos => rw [hs n hd, below_succ_some (hD n hd).right, Link.apply_base]
      case neg => simp only [below, h n hn hd, hi]

theorem chain_succ_none (h : H n = none) : chain H (n + 1) = chain H n := by
  simp [chain, h]

theorem chain_succ_operand (h : H n = some (.operand x)) :
    chain H (n + 1) = (x :: (chain H n).1, (chain H n).2) := by
  simp [chain, h]

theorem chain_succ_base (h : H n = some (.base b)) : chain H (n + 1) = ([], some b) := by
  simp [chain, h]

theorem chain_congr_above (hm : chain H₁ m = chain H₂ m) (hn : m ≤ n)
    (h : ∀ s, m ≤ s → s < n → H₁ s = H₂ s) : chain H₁ n = chain H₂ n := by
  induction n, hn using Nat.le_induction
  case base => exact hm
  case succ n hn hi =>
    simp only [chain, h n hn (Nat.lt_succ_self _), hi fun s h₁ h₂ => h s h₁ (Nat.lt_succ_of_lt h₂)]

theorem chain_congr (h : ∀ s < n, H₁ s = H₂ s) : chain H₁ n = chain H₂ n :=
  chain_congr_above (m := 0) rfl (Nat.zero_le _) fun s _ => h s

theorem chain_eq_of_none (hn : m ≤ n) (h : ∀ s, m ≤ s → s < n → H s = none) :
    chain H n = chain H m := by
  induction n, hn using Nat.le_induction
  case base => rfl
  case succ n hn hi =>
    rw [chain_succ_none (h n hn (Nat.lt_succ_self _)), hi fun s h₁ h₂ => h s h₁ (Nat.lt_succ_of_lt h₂)]

theorem chain_congr_base (hs : H₁ s = some (.base b)) (hn : s < n)
    (h : ∀ t, s ≤ t → t < n → H₁ t = H₂ t) : chain H₁ n = chain H₂ n := by
  refine chain_congr_above (m := s + 1) ?_ hn fun t h₁ h₂ => h t (Nat.le_of_succ_le h₁) h₂
  rw [chain_succ_base hs, chain_succ_base (h s le_rfl hn ▸ hs)]

theorem chain_succ_some (h : H n = some l) : chain H (n + 1) = push (chain H n) l := by
  cases l
  case operand => exact chain_succ_operand h
  case base => exact chain_succ_base h

theorem chain_eq_foldl_push {L : List (Nat × Link V)} (hs : L.Pairwise (·.1 < ·.1))
    (hb : ∀ l ∈ L, m ≤ l.1 ∧ l.1 < n) (hn : m ≤ n)
    (h : ∀ s, m ≤ s → s < n → H s = (L.find? (·.1 = s)).map (·.2)) :
    chain H n = (L.map (·.2)).foldl push (chain H m) := by
  induction L generalizing m
  case nil => exact chain_eq_of_none hn fun s h₁ h₂ => by simpa using h s h₁ h₂
  case cons l L hi =>
    obtain ⟨hl, hs⟩ := List.pairwise_cons.mp hs
    obtain ⟨hml, hln⟩ := hb l (by simp)
    have hgap : ∀ s, m ≤ s → s < l.1 → H s = none := by
      intro s h₁ h₂
      rw [h s h₁ (h₂.trans hln)]
      simp only [Option.map_eq_none_iff, List.find?_eq_none, List.mem_cons, decide_eq_true_eq]
      rintro x (rfl | hx)
      · omega
      · have := hl x hx
        omega
    have hlink : H l.1 = some l.2 := by simp [h l.1 hml hln]
    have htail : ∀ s, l.1 + 1 ≤ s → s < n → H s = (L.find? (·.1 = s)).map (·.2) := by
      intro s h₁ h₂
      rw [h s (by omega) h₂, List.find?_cons_of_neg (by simp only [decide_eq_true_eq]; omega)]
    rw [hi hs (fun x hx => ⟨hl x hx, (hb x (by simp [hx])).2⟩) hln htail, chain_succ_some hlink,
      chain_eq_of_none hml hgap]
    rfl

theorem below_eq_chain : below f H e n =
    (chain H n).1.foldr (fun x e => some (f e x)) ((chain H n).2.getD e) := by
  induction n
  case zero => rfl
  case succ n hi =>
    cases hl : H n
    case none => rw [below_succ_none hl, chain_succ_none hl, hi]
    case some l =>
      cases l
      case operand x => rw [below_succ_some hl, chain_succ_operand hl, hi]; rfl
      case base b => rw [below_succ_some hl, chain_succ_base hl]; rfl

end History

import Mathlib.Data.List.Basic
import Mathlib.Order.Lattice

-- Readers: each takes symbols off the front of a list, or fails.
abbrev Reader (E B A : Type) := StateT (List B) (Except E) A

namespace Reader

open List

variable {E B A C : Type} {n : Nat} {r : Reader E B A} {f : A → Reader E B C} {b b' : List B} {a : A} {c : C}

-- `r` takes `b` off the front, whatever follows it, and gives `a`, unless `b` has `n` symbols or more.
def Reads (n : Nat) (r : Reader E B A) (b : List B) (a : A) : Prop :=
  b.length < n → ∀ rest, r (b ++ rest) = .ok (a, rest)

theorem Reads.pure (a : A) : Reads (E := E) (B := B) n (Pure.pure a) [] a :=
  fun _ _ => rfl

theorem Reads.bind (h : Reads n r b a) (h' : Reads n (f a) b' c) : Reads n (r >>= f) (b ++ b') c := by
  intro hn rest
  rw [length_append] at hn
  rw [append_assoc]
  calc (r >>= f) (b ++ (b' ++ rest))
    _ = (r (b ++ (b' ++ rest)) >>= fun p => f p.1 p.2) := rfl
    _ = f a (b' ++ rest)                                := by rw [h (by omega)]; rfl
    _ = .ok (c, rest)                                   := h' (by omega) rest

theorem Reads.last (h : Reads n r b a) (h' : f a = Pure.pure c) : Reads n (r >>= f) b c := by
  have := h.bind (f := f) (h' ▸ Reads.pure c)
  rwa [append_nil] at this

theorem Reads.map (h : Reads n r b a) (g : A → C) : Reads n (g <$> r) b (g a) := by
  intro hn rest
  calc (g <$> r) (b ++ rest)
    _ = (r (b ++ rest) >>= fun p => .ok (g p.1, p.2)) := rfl
    _ = .ok (g a, rest)                               := by rw [h hn]; rfl

theorem Reads.exact (h : Reads n r b a) (hn : b.length < n) : r b = .ok (a, []) := by
  simpa using h hn []

def many (r : Nat → Reader E B A) : Nat → Nat → Reader E B (List A)
  | _, 0 => Pure.pure []
  | i, n + 1 => do
    let a ← r i
    let as ← many r (i + 1) n
    Pure.pure (a :: as)

theorem Reads.many {r : Nat → Reader E B A} {enc : C → List B} {g : C → A} {cs : List C} (i : Nat)
    (h : ∀ i, ∀ c ∈ cs, Reads n (r i) (enc c) (g c)) :
    Reads n (many r i cs.length) (cs.flatMap enc) (cs.map g) := by
  induction cs generalizing i
  case nil => exact Reads.pure []
  case cons c cs ih =>
    rw [flatMap_cons]
    apply (h i c (mem_cons_self ..)).bind
    exact (ih (i + 1) fun i c hc => h i c (mem_cons_of_mem _ hc)).last rfl

theorem length_le_length_flatMap {enc : A → List B} {as : List A} (h : ∀ a ∈ as, 1 ≤ (enc a).length) :
    as.length ≤ (as.flatMap enc).length := by
  induction as
  case nil => exact le_rfl
  case cons a as ih =>
    rw [flatMap_cons, length_append, length_cons]
    have ha := h a (mem_cons_self ..)
    have has := ih fun a ha => h a (mem_cons_of_mem _ ha)
    omega

-- What `r` makes of a list does not depend on what follows the symbols it takes.
def Stable (r : Reader E B A) : Prop :=
  ∀ b a rest, r b = .ok (a, rest) → ∀ c, r (b ++ c) = .ok (a, rest ++ c)

namespace Stable

theorem pure (a : A) : Stable (E := E) (B := B) (Pure.pure a) := by
  intro b a' rest h c
  cases h
  rfl

theorem bind (h : Stable r) (h' : ∀ a, Stable (f a)) : Stable (r >>= f) := by
  intro b c rest hb d
  change (r b >>= fun p => f p.1 p.2) = _ at hb
  change (r (b ++ d) >>= fun p => f p.1 p.2) = _
  cases hr : r b with
  | error e =>
    rw [hr] at hb
    cases hb
  | ok p =>
    rw [hr] at hb
    rw [h b p.1 p.2 hr d]
    exact h' p.1 p.2 c rest hb d

theorem map (h : Stable r) (g : A → C) : Stable (g <$> r) :=
  h.bind fun a => .pure (g a)

theorem many {r : Nat → Reader E B A} (h : ∀ i, Stable (r i)) (i n : Nat) : Stable (many r i n) := by
  induction n generalizing i
  case zero => exact .pure []
  case succ n ih => exact (h i).bind fun a => (ih (i + 1)).bind fun as => .pure (a :: as)

theorem not_ok_of_short (h : Stable r) (hr : r b = .ok (a, [])) (hs : b'' ++ b' = b) (hne : b' ≠ []) :
    ∀ p, r b'' ≠ .ok p := by
  intro p hp
  have hb := h b'' p.1 p.2 hp b'
  rw [hs, hr] at hb
  cases p
  simp only [Except.ok.injEq, Prod.mk.injEq, nil_eq, append_eq_nil_iff] at hb
  exact hne hb.2.2

end Stable

def Throws (P : E → Prop) (r : Reader E B A) : Prop :=
  ∀ b e, r b = .error e → P e

namespace Throws

variable {P : E → Prop}

theorem pure (a : A) : Throws (E := E) (B := B) P (Pure.pure a) := by
  intro b e h
  cases h

theorem bind (h : Throws P r) (h' : ∀ a, Throws P (f a)) : Throws P (r >>= f) := by
  intro b e hb
  change (r b >>= fun p => f p.1 p.2) = _ at hb
  cases hr : r b with
  | error e' =>
    rw [hr] at hb
    cases hb
    exact h b _ hr
  | ok p =>
    rw [hr] at hb
    exact h' p.1 p.2 e hb

theorem map (h : Throws P r) (g : A → C) : Throws P (g <$> r) :=
  h.bind fun a => .pure (g a)

theorem many {r : Nat → Reader E B A} (h : ∀ i, Throws P (r i)) (i n : Nat) : Throws P (many r i n) := by
  induction n generalizing i
  case zero => exact .pure []
  case succ n ih => exact (h i).bind fun a => (ih (i + 1)).bind fun as => .pure (a :: as)

end Throws

theorem bind_eq_ok : (r >>= f) b = .ok (c, b') ↔ ∃ a b₁, r b = .ok (a, b₁) ∧ f a b₁ = .ok (c, b') := by
  change (r b >>= fun p => f p.1 p.2) = _ ↔ _
  cases r b
  case error e => simp [Bind.bind, Except.bind]
  case ok p => simp [Bind.bind, Except.bind, Prod.ext_iff]

theorem map_eq_ok : (g <$> r) b = .ok (c, b') ↔ ∃ a, r b = .ok (a, b') ∧ g a = c := by
  change (r >>= fun a => Pure.pure (g a)) b = _ ↔ _
  rw [bind_eq_ok]
  constructor
  case mp =>
    rintro ⟨a, b₁, hr, h⟩
    cases h
    exact ⟨a, hr, rfl⟩
  case mpr =>
    rintro ⟨a, hr, rfl⟩
    exact ⟨a, b', hr, rfl⟩

-- A form `b` of something that has the form `c`, and no shorter one.
structure LongForm (b c : List B) : Prop where
  length_le : c.length ≤ b.length
  eq : b.length = c.length → b = c

namespace LongForm

variable {c c' : List B}

theorem refl (b : List B) : LongForm b b :=
  ⟨le_rfl, fun _ => rfl⟩

theorem append (h : LongForm b c) (h' : LongForm b' c') : LongForm (b ++ b') (c ++ c') := by
  have hle := h.length_le
  have hle' := h'.length_le
  constructor
  case length_le =>
    rw [length_append, length_append]
    omega
  case eq =>
    intro he
    rw [length_append, length_append] at he
    rw [h.eq (by omega), h'.eq (by omega)]

end LongForm

-- What `r` gives satisfies `P` at the number of symbols that it took, or at a smaller one.
def Ensures (P : Nat → A → Prop) (r : Reader E B A) : Prop :=
  ∀ b a rest, r b = .ok (a, rest) → ∃ n, n + rest.length ≤ b.length ∧ P n a

namespace Ensures

variable {P : Nat → A → Prop} {Q : Nat → C → Prop}

theorem pure (h : P 0 a) : Ensures (E := E) (B := B) P (Pure.pure a) := by
  intro b a' rest hb
  cases hb
  exact ⟨0, (Nat.zero_add _).le, h⟩

theorem throw (e : E) : Ensures P (MonadExcept.throw e : Reader E B A) := by
  intro b a rest hb
  cases hb

theorem bind (h : Ensures P r) (h' : ∀ n a, P n a → Ensures (fun m c => Q (n + m) c) (f a)) :
    Ensures Q (r >>= f) := by
  intro b c rest hb
  obtain ⟨a, b₁, hr, hf⟩ := bind_eq_ok.mp hb
  obtain ⟨n, hn, hp⟩ := h b a b₁ hr
  obtain ⟨m, hm, hq⟩ := h' n a hp b₁ c rest hf
  exact ⟨n + m, by omega, hq⟩

theorem mono {Q : Nat → A → Prop} (h : Ensures P r) (h' : ∀ n a, P n a → Q n a) : Ensures Q r := by
  intro b a rest hb
  obtain ⟨n, hn, hp⟩ := h b a rest hb
  exact ⟨n, hn, h' n a hp⟩

theorem map (h : Ensures P r) (h' : ∀ n a, P n a → Q n (g a)) : Ensures Q (g <$> r) :=
  h.bind fun n a hp => .pure (h' n a hp)

theorem many {p : A → Prop} {enc : A → List B} {r : Nat → Reader E B A}
    (h : ∀ i, Ensures (fun n a => (enc a).length ≤ n ∧ p a) (r i)) (i k : Nat) :
    Ensures (fun n as => as.length = k ∧ (as.flatMap enc).length ≤ n ∧ ∀ a ∈ as, p a) (many r i k) := by
  induction k generalizing i
  case zero => exact .pure ⟨rfl, le_rfl, fun _ ha => absurd ha (not_mem_nil)⟩
  case succ k ih =>
    apply (h i).bind
    rintro n a ⟨hn, ha⟩
    apply (ih (i + 1)).bind
    rintro m as ⟨hk, hm, has⟩
    apply pure
    refine ⟨by rw [length_cons, hk], ?_, forall_mem_cons.mpr ⟨ha, has⟩⟩
    rw [flatMap_cons, length_append]
    omega

end Ensures

end Reader

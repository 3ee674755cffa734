import OndaDb.Comparator
import OndaDb.Sst.Index

-- The separators of the data blocks of a table in the order of the bytes, and the search for the block of a key.
namespace OndaDb.Sst

open List

open Std (TransCmp OrientedCmp ReflCmp LawfulEqCmp)

def sharedLen : Bytes → Bytes → Nat
  | x :: a, y :: b => if x = y then sharedLen a b + 1 else 0
  | _, _ => 0

def shortestSeparator (a b : Bytes) : Bytes :=
  let i := sharedLen a b
  match a[i]?, b[i]? with
  | some x, some y =>
    if x < 0xff ∧ x + 1 < y then a.take i ++ [x + 1]
    else if x < 0xff ∧ x + 1 = y ∧ i + 1 < b.length then a.take i ++ [x + 1]
    else a
  | _, _ => a

structure DataBlock where
  first : Bytes × UInt64
  rest : List (Bytes × UInt64)
  handle : BlockHandle

namespace DataBlock

def entries (b : DataBlock) : List (Bytes × UInt64) :=
  b.first :: b.rest

def last (b : DataBlock) : Bytes × UInt64 :=
  b.entries.getLast (List.cons_ne_nil _ _)

end DataBlock

def settlePendingIndex (b : DataBlock) (nextKey : Bytes) : IndexEntry :=
  let sep := shortestSeparator b.last.1 nextKey
  ⟨sep, if sep = b.last.1 then b.last.2 else 0, b.handle⟩

-- The last block keeps its last key.
def indexOf : List DataBlock → List IndexEntry
  | [] => []
  | [b] => [⟨b.last.1, b.last.2, b.handle⟩]
  | b :: c :: bs => settlePendingIndex b c.first.1 :: indexOf (c :: bs)

def cmpInternal (a b : Bytes × UInt64) : Ordering :=
  (bytewise a.1 b.1).then (compare b.2 a.2)

def findBlock.go (index : List IndexEntry) (x : Bytes × UInt64) (lo hi : Nat) : Nat :=
  if lo < hi then
    match index[(lo + hi) / 2]? with
    | some e => if cmpInternal (e.userKey, e.seq) x = .lt then go index x ((lo + hi) / 2 + 1) hi else go index x lo ((lo + hi) / 2)
    | none => lo
  else lo
termination_by hi - lo

def findBlock (index : List IndexEntry) (userKey : Bytes) (seq : UInt64) : Nat :=
  findBlock.go index (userKey, seq) 0 index.length

variable {b c : DataBlock} {bs : List DataBlock} {e : IndexEntry} {x y : Bytes × UInt64} {i : Nat}

theorem isLE_self {cmp : α → α → Ordering} [ReflCmp cmp] : (cmp a a).isLE :=
  congrArg Ordering.isLE ReflCmp.compare_self

theorem isLE_of_lt {o : Ordering} (h : o = .lt) : o.isLE :=
  congrArg Ordering.isLE h

theorem shortestSeparator_cons (x : UInt8) (a b : Bytes) :
    shortestSeparator (x :: a) (x :: b) = x :: shortestSeparator a b := by
  simp only [shortestSeparator, sharedLen, if_true, getElem?_cons_succ, take_succ_cons, length_cons,
    Nat.add_lt_add_iff_right, cons_append]
  cases a[sharedLen a b]? <;> cases b[sharedLen a b]?
  case some.some => dsimp only; split_ifs <;> rfl
  all_goals rfl

theorem shortestSeparator_self (a : Bytes) : shortestSeparator a a = a := by
  induction a
  case nil => rfl
  case cons x a hi => rw [shortestSeparator_cons, hi]

theorem shortestSeparator_of_ne {x y : UInt8} (h : x ≠ y) (a b : Bytes) :
    shortestSeparator (x :: a) (y :: b) =
      if x < 0xff ∧ (x + 1 < y ∨ x + 1 = y ∧ b ≠ []) then [x + 1] else x :: a := by
  simp only [shortestSeparator, sharedLen, if_neg h, getElem?_cons_zero, take_zero, nil_append,
    length_cons, ← length_pos_iff, Nat.add_lt_add_iff_right]
  split_ifs <;> first | rfl | grind

theorem lt_add_one_of_lt {x : UInt8} (h : x < 0xff) : x < x + 1 := by
  grind

theorem separator_spec {a b : Bytes} (h : bytewise a b = .lt) :
    (bytewise a (shortestSeparator a b)).isLE ∧ bytewise (shortestSeparator a b) b = .lt ∧
      (shortestSeparator a b).length ≤ a.length := by
  induction a generalizing b
  case nil => exact ⟨isLE_self, h, le_rfl⟩
  case cons x a hi =>
    cases b
    case nil => cases h
    case cons y b =>
      by_cases hxy : x = y
      case pos =>
        subst hxy
        have hx : compare x x = .eq := ReflCmp.compare_self
        rw [bytewise_cons, hx, Ordering.eq_then] at h
        rw [shortestSeparator_cons, bytewise_cons, bytewise_cons, hx, Ordering.eq_then, Ordering.eq_then]
        exact ⟨(hi h).1, (hi h).2.1, Nat.succ_le_succ (hi h).2.2⟩
      rw [shortestSeparator_of_ne hxy]
      split
      case isTrue hc =>
        have hlt : compare x (x + 1) = .lt := Std.compare_eq_lt.mpr (lt_add_one_of_lt hc.1)
        rw [bytewise_cons, hlt, bytewise_cons]
        refine ⟨rfl, ?_, by simp⟩
        obtain hy | ⟨rfl, hb⟩ := hc.2
        case inl => rw [Std.compare_eq_lt.mpr hy]; rfl
        case inr =>
          obtain ⟨c, b, rfl⟩ := exists_cons_of_ne_nil hb
          rw [(ReflCmp.compare_self : compare (x + 1) (x + 1) = .eq)]
          rfl
      case isFalse => exact ⟨isLE_self, h, le_rfl⟩

instance : TransCmp cmpInternal :=
  have h : TransCmp (compareOn (Prod.snd : Bytes × UInt64 → UInt64)) := inferInstance
  have : TransCmp fun a b : Bytes × UInt64 => compareOn Prod.snd b a := h.opposite
  inferInstanceAs (TransCmp (compareLex (compareOn Prod.fst) fun a b : Bytes × UInt64 => compareOn Prod.snd b a))

theorem cmpInternal_of_lt {a b : Bytes} (h : bytewise a b = .lt) (m n : UInt64) : cmpInternal (a, m) (b, n) = .lt := by
  rw [cmpInternal, h]
  rfl

-- A separator stands at or after the last entry of its block and before the first entry of the next.
theorem settlePendingIndex_between (h : cmpInternal b.last y = .lt) :
    let e := settlePendingIndex b y.1
    (cmpInternal b.last (e.userKey, e.seq)).isLE ∧ cmpInternal (e.userKey, e.seq) y = .lt := by
  dsimp only [settlePendingIndex]
  split
  case isTrue hs => rw [hs]; exact ⟨isLE_self, h⟩
  case isFalse hs =>
    obtain hk | ⟨hk, -⟩ := Ordering.then_eq_lt.mp h
    case inl =>
      obtain ⟨hle, hlt, -⟩ := separator_spec hk
      have hne : bytewise b.last.1 (shortestSeparator b.last.1 y.1) ≠ .eq :=
        fun he => hs (LawfulEqCmp.eq_of_compare he).symm
      have hl : bytewise b.last.1 (shortestSeparator b.last.1 y.1) = .lt := by
        cases hc : bytewise b.last.1 (shortestSeparator b.last.1 y.1) <;> simp_all
      exact ⟨isLE_of_lt (cmpInternal_of_lt hl b.last.2 0), cmpInternal_of_lt hlt ..⟩
    case inr =>
      rw [← LawfulEqCmp.eq_of_compare hk, shortestSeparator_self] at hs
      exact absurd rfl hs

def stored (bs : List DataBlock) : List (Bytes × UInt64) :=
  bs.flatMap DataBlock.entries

def Ascending (xs : List (Bytes × UInt64)) : Prop :=
  xs.Pairwise (cmpInternal · · = .lt)

theorem le_last (h : Ascending b.entries) (hx : x ∈ b.entries) : (cmpInternal x b.last).isLE := by
  have he : b.entries.dropLast ++ [b.last] = b.entries := dropLast_append_getLast _
  rw [Ascending, ← he] at h
  rw [← he] at hx
  obtain hx | hx := mem_append.mp hx
  case inl => exact isLE_of_lt ((pairwise_append.mp h).2.2 x hx b.last (mem_singleton.mpr rfl))
  case inr =>
    obtain rfl := mem_singleton.mp hx
    exact isLE_self

theorem first_le (h : Ascending (stored (c :: bs))) (hy : y ∈ stored (c :: bs)) : (cmpInternal c.first y).isLE := by
  obtain rfl | hy := mem_cons.mp hy
  case inl => exact isLE_self
  case inr => exact isLE_of_lt ((pairwise_cons.mp h).1 y hy)

theorem length_indexOf (bs : List DataBlock) : (indexOf bs).length = bs.length := by
  fun_induction indexOf bs
  case case1 => rfl
  case case2 => rfl
  case case3 hi => rw [length_cons, hi]; rfl

theorem mem_stored (hb : bs[i]? = some b) (hx : x ∈ b.entries) : x ∈ stored bs :=
  mem_flatMap.mpr ⟨b, mem_of_getElem? hb, hx⟩

theorem indexOf_bounds (h : Ascending (stored bs)) (he : (indexOf bs)[i]? = some e) (j : Nat)
    (hc : bs[j]? = some c) (hx : x ∈ c.entries) :
    (j ≤ i → (cmpInternal x (e.userKey, e.seq)).isLE) ∧ (i < j → cmpInternal (e.userKey, e.seq) x = .lt) := by
  fun_induction indexOf bs generalizing i j c x
  case case1 => cases he
  case case2 b =>
    cases i
    case succ => cases he
    case zero =>
      cases he
      cases j
      case succ => cases hc
      case zero =>
        cases hc
        exact ⟨fun _ => le_last (by simpa [stored] using h) hx, fun hj => absurd hj (Nat.lt_irrefl 0)⟩
  case case3 b d bs hi =>
    have hs : stored (b :: d :: bs) = b.entries ++ stored (d :: bs) := rfl
    obtain ⟨h₁, h₂, h₃⟩ := pairwise_append.mp (hs ▸ h)
    cases i
    case zero =>
      cases he
      obtain ⟨hle, hlt⟩ := settlePendingIndex_between (h₃ b.last (getLast_mem _) d.first (mem_cons_self ..))
      cases j
      case zero =>
        cases hc
        exact ⟨fun _ => TransCmp.isLE_trans (le_last h₁ hx) hle, fun hj => absurd hj (Nat.lt_irrefl 0)⟩
      case succ j =>
        exact ⟨nofun, fun _ => TransCmp.lt_of_lt_of_isLE hlt (first_le h₂ (mem_stored hc hx))⟩
    case succ i =>
      cases j
      case succ j => simpa using hi h₂ he j hc hx
      case zero =>
        cases hc
        have hd : (d :: bs)[0]? = some d := rfl
        have hf : d.first ∈ d.entries := mem_cons_self ..
        exact ⟨fun _ => TransCmp.isLE_trans (isLE_of_lt (h₃ x hx d.first (mem_stored hd hf)))
          ((hi h₂ he 0 hd hf).1 (Nat.zero_le i)), nofun⟩

theorem go_eq {index : List IndexEntry}
    (h : ∀ j e, index[j]? = some e → (cmpInternal (e.userKey, e.seq) x = .lt ↔ j < i))
    (hlo : lo ≤ i) (hhi : i ≤ hi) (hlen : hi ≤ index.length) : findBlock.go index x lo hi = i := by
  fun_induction findBlock.go index x lo hi
  case case1 lo hi hlt e he hc ih => exact ih ((h _ e he).mp hc) hhi hlen
  case case2 lo hi hlt e he hc ih => exact ih hlo (not_lt.mp fun hi => hc ((h _ e he).mpr hi)) (by omega)
  case case3 lo hi hlt he =>
    rw [List.getElem?_eq_none_iff] at he
    omega
  case case4 => omega

theorem findBlock_eq (h : Ascending (stored bs)) (hb : bs[i]? = some b) (hx : x ∈ b.entries) :
    findBlock (indexOf bs) x.1 x.2 = i := by
  refine go_eq (fun j e he => ⟨fun hlt => ?_, (indexOf_bounds h he i hb hx).2⟩) (Nat.zero_le _) ?_ le_rfl
  case refine_1 =>
    by_contra hj
    have hle := (indexOf_bounds h he i hb hx).1 (not_lt.mp hj)
    have hself : cmpInternal x x = .lt := TransCmp.lt_of_isLE_of_lt hle hlt
    exact absurd (hself.symm.trans ReflCmp.compare_self) (by decide)
  case refine_2 =>
    rw [length_indexOf]
    exact (List.getElem?_eq_some_iff.mp hb).1.le

/-- A separator lies between the last key of a block and the first key of the next and is no longer than the last
key, and a stored key is looked for in the block that holds it. -/
theorem separator_usable :
    (∀ a b, bytewise a b = .lt → (bytewise a (shortestSeparator a b)).isLE ∧
      bytewise (shortestSeparator a b) b = .lt ∧ (shortestSeparator a b).length ≤ a.length) ∧
    ∀ bs : List DataBlock, Ascending (stored bs) → ∀ i b key seq, bs[i]? = some b → (key, seq) ∈ b.entries →
      findBlock (indexOf bs) key seq = i :=
  ⟨fun _ _ h => separator_spec h, fun _ h _ _ _ _ hb hx => findBlock_eq h hb hx⟩

instance (xs : List (Bytes × UInt64)) : Decidable (Ascending xs) :=
  inferInstanceAs (Decidable (xs.Pairwise _))

theorem separator_usable_sample :
    shortestSeparator [1, 2, 9] [1, 4] = [1, 3] ∧ bytewise [1, 3] [1, 4] = .lt ∧
      let bs : List DataBlock := [⟨([1], 7), [([1, 2, 9], 3)], ⟨0, 10⟩⟩, ⟨([1, 4], 5), [([1, 4], 2)], ⟨10, 10⟩⟩]
      findBlock (indexOf bs) [1, 4] 2 = 1 :=
  ⟨by decide, (separator_usable.1 [1, 2, 9] [1, 4] (by decide)).2.1,
    separator_usable.2 _ (by decide +kernel) 1 _ _ _ rfl (by decide)⟩

end OndaDb.Sst

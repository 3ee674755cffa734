import OndaDb.RangeTombstone.Mask

namespace OndaDb

open List

open Std (TransCmp OrientedCmp ReflCmp LawfulEqCmp)

def reverseBytewise : Comparator := fun a b => bytewise b a

def lexicographic : Comparator := bytewise

def beU64 (b : Bytes) : Nat :=
  (b.take 8).foldl (fun x c => 256 * x + c.toNat) 0

def beI64 (b : Bytes) : Int :=
  if beU64 b < 2 ^ 63 then beU64 b else beU64 b - 2 ^ 64

def uint64Cmp : Comparator := fun a b =>
  if a.length = 8 ∧ b.length = 8 then compare (beU64 a) (beU64 b) else bytewise a b

def int64Rank (k : Bytes) : Bytes × UInt8 × Int :=
  if k.length = 8 ∧ k.headI &&& 0x80 ≠ 0 then (List.replicate 8 0, 0, beI64 k) else (k, 1, 0)

def compareRank (x y : Bytes × UInt8 × Int) : Ordering :=
  (bytewise x.1 y.1).then ((compare x.2.1 y.2.1).then (compare x.2.2 y.2.2))

def int64Cmp : Comparator := fun a b =>
  if a.length = 8 ∧ b.length = 8 then compare (beI64 a) (beI64 b) else compareRank (int64Rank a) (int64Rank b)

inductive Builtin
  | memcmp
  | reverse
  | lexicographic
  | uint64
  | int64
  | caseInsensitive

namespace Builtin

def compare : Builtin → Comparator
  | memcmp => bytewise
  | reverse => reverseBytewise
  | lexicographic => OndaDb.lexicographic
  | uint64 => uint64Cmp
  | int64 => int64Cmp
  | caseInsensitive => OndaDb.caseInsensitive

def isBytewise : Builtin → Bool
  | memcmp => true
  | lexicographic => true
  | _ => false

end Builtin

structure Comparator.Lawful (cmp : Comparator) : Prop where
  antisymm : ∀ a b, cmp a b = (cmp b a).swap
  trans : ∀ a b c, (cmp a b).isLE → (cmp b c).isLE → (cmp a c).isLE
  total : ∀ a b, (cmp a b).isLE ∨ (cmp b a).isLE
  eq_iff : ∀ a b, cmp a b = .eq ↔ a = b

theorem Comparator.Lawful.of_trans (cmp : Comparator) [TransCmp cmp] (h : ∀ a b, cmp a b = .eq → a = b) :
    cmp.Lawful where
  antisymm _ _ := OrientedCmp.eq_swap
  trans _ _ _ := TransCmp.isLE_trans
  total a b := by
    have hab : cmp b a = (cmp a b).swap := OrientedCmp.eq_swap
    rw [hab]
    cases cmp a b <;> simp
  eq_iff a b := ⟨h a b, fun he => he ▸ ReflCmp.compare_self⟩

instance : TransCmp bytewise :=
  inferInstanceAs (TransCmp (List.compareLex Ord.compare))

instance : LawfulEqCmp bytewise :=
  inferInstanceAs (LawfulEqCmp (List.compareLex Ord.compare))

theorem bytewise_cons (c d : UInt8) (a b : Bytes) :
    bytewise (c :: a) (d :: b) = (compare c d).then (bytewise a b) :=
  List.compareLex_cons_cons

theorem compare_toNat (c d : UInt8) : compare c d = compare c.toNat d.toNat := by
  rw [Nat.compare_eq_ite_lt]
  change compareOfLessAndEq c d = _
  simp only [compareOfLessAndEq, UInt8.lt_iff_toNat_lt, ← UInt8.toNat_inj]
  split_ifs <;> first | rfl | omega

theorem compare_digits {x y c d : Nat} (hc : c < 256) (hd : d < 256) :
    compare (256 * x + c) (256 * y + d) = (compare x y).then (compare c d) := by
  obtain h | rfl | h := lt_trichotomy x y
  case inl => rw [Nat.compare_eq_lt.mpr h, Nat.compare_eq_lt.mpr (by omega)]; rfl
  case inr.inl =>
    rw [Nat.compare_eq_eq.mpr rfl, Ordering.eq_then]
    obtain h | rfl | h := lt_trichotomy c d
    case inl => rw [Nat.compare_eq_lt.mpr h, Nat.compare_eq_lt.mpr (by omega)]
    case inr.inl => rw [Nat.compare_eq_eq.mpr rfl, Nat.compare_eq_eq.mpr rfl]
    case inr.inr => rw [Nat.compare_eq_gt.mpr h, Nat.compare_eq_gt.mpr (by omega)]
  case inr.inr => rw [Nat.compare_eq_gt.mpr h, Nat.compare_eq_gt.mpr (by omega)]; rfl

-- Numbers of one length in base 256, highest digit first, are ordered as their digits are.
theorem compare_foldl {a b : Bytes} (h : a.length = b.length) (x y : Nat) :
    compare (a.foldl (fun x c => 256 * x + c.toNat) x) (b.foldl (fun x c => 256 * x + c.toNat) y) =
      (compare x y).then (bytewise a b) := by
  induction a generalizing b x y
  case nil =>
    obtain rfl := length_eq_zero_iff.mp h.symm
    exact Ordering.then_eq.symm
  case cons c a hi =>
    cases b
    case nil => cases h
    case cons d b =>
      rw [foldl_cons, foldl_cons, hi (by simpa using h), compare_digits c.toNat_lt d.toNat_lt,
        Ordering.then_assoc, ← compare_toNat, ← bytewise_cons]

theorem compare_beU64 {a b : Bytes} (ha : a.length = 8) (hb : b.length = 8) :
    compare (beU64 a) (beU64 b) = bytewise a b := by
  rw [beU64, beU64, take_of_length_le ha.le, take_of_length_le hb.le, compare_foldl (ha.trans hb.symm)]
  rfl

theorem uint64Cmp_eq : uint64Cmp = bytewise := by
  funext a b
  rw [uint64Cmp]
  split
  case isTrue h => exact compare_beU64 h.1 h.2
  case isFalse => rfl

theorem foldl_digits (a : Bytes) (x : Nat) :
    x * 256 ^ a.length ≤ a.foldl (fun x c => 256 * x + c.toNat) x ∧
      a.foldl (fun x c => 256 * x + c.toNat) x < (x + 1) * 256 ^ a.length := by
  induction a generalizing x
  case nil => simp
  case cons c a hi =>
    have hc := c.toNat_lt
    obtain ⟨hl, hu⟩ := hi (256 * x + c.toNat)
    rw [foldl_cons, length_cons, pow_succ']
    constructor
    case left =>
      refine le_trans ?_ hl
      rw [← mul_assoc]
      exact Nat.mul_le_mul_right _ (by omega)
    case right =>
      refine lt_of_lt_of_le hu ?_
      rw [← mul_assoc]
      exact Nat.mul_le_mul_right _ (by omega)

theorem beU64_lt (k : Bytes) : beU64 k < 2 ^ 64 := by
  have hle : 256 ^ (k.take 8).length ≤ 256 ^ 8 := Nat.pow_le_pow_right (by decide) (length_take_le 8 k)
  have := (foldl_digits (k.take 8) 0).2
  rw [beU64]
  omega

theorem and_ne_zero_iff (c : UInt8) : c &&& 0x80 ≠ 0 ↔ 128 ≤ c.toNat := by
  have hc : ∀ n < 256, n &&& 128 ≠ 0 ↔ 128 ≤ n := by decide +kernel
  rw [← hc c.toNat c.toNat_lt, ne_eq, ← UInt8.toNat_inj, UInt8.toNat_and]
  rfl

theorem sign_iff {k : Bytes} (h : k.length = 8) : k.headI &&& 0x80 ≠ 0 ↔ 2 ^ 63 ≤ beU64 k := by
  cases k
  case nil => cases h
  case cons c k =>
    have hk : k.length = 7 := by simpa using h
    obtain ⟨hl, hu⟩ := foldl_digits k c.toNat
    rw [beU64, take_of_length_le h.le, foldl_cons, mul_zero, zero_add, headI_cons, and_ne_zero_iff]
    rw [hk] at hl hu
    omega

theorem compare_natCast (x y : Nat) : compare (x : Int) y = compare x y := by
  obtain h | rfl | h := lt_trichotomy x y
  case inl => rw [Nat.compare_eq_lt.mpr h, compare_lt_iff_lt.mpr (by omega)]
  case inr.inl => rw [Nat.compare_eq_eq.mpr rfl, compare_eq_iff_eq]
  case inr.inr => rw [Nat.compare_eq_gt.mpr h, compare_gt_iff_gt.mpr (by omega)]

theorem compare_beI64 {a b : Bytes} (ha : a.length = 8) (hb : b.length = 8) :
    compare (beI64 a) (beI64 b) = compareRank (int64Rank a) (int64Rank b) := by
  have hua := beU64_lt a
  have hub := beU64_lt b
  have hz : beU64 (replicate 8 0) = 0 := rfl
  rw [int64Rank, int64Rank, beI64, beI64]
  simp only [ha, hb, sign_iff ha, sign_iff hb, true_and, compareRank]
  by_cases hsa : 2 ^ 63 ≤ beU64 a
  case pos =>
    rw [if_pos hsa, if_neg (not_lt.mpr hsa)]
    by_cases hsb : 2 ^ 63 ≤ beU64 b
    case pos =>
      rw [if_pos hsb, if_neg (not_lt.mpr hsb)]
      rfl
    rw [if_neg hsb, if_pos (not_le.mp hsb), compare_lt_iff_lt.mpr (by omega)]
    dsimp only
    rw [← compare_beU64 rfl hb, hz]
    obtain h | h := Nat.eq_zero_or_pos (beU64 b)
    case inl => rw [h]; rfl
    case inr => rw [Nat.compare_eq_lt.mpr h]; rfl
  rw [if_neg hsa, if_pos (not_le.mp hsa)]
  by_cases hsb : 2 ^ 63 ≤ beU64 b
  case pos =>
    rw [if_pos hsb, if_neg (not_lt.mpr hsb), compare_gt_iff_gt.mpr (by omega)]
    dsimp only
    rw [← compare_beU64 ha rfl, hz]
    obtain h | h := Nat.eq_zero_or_pos (beU64 a)
    case inl => rw [h]; rfl
    case inr => rw [Nat.compare_eq_gt.mpr h]; rfl
  rw [if_neg hsb, if_pos (not_le.mp hsb), ← compare_beU64 ha hb]
  exact (compare_natCast _ _).trans Ordering.then_eq.symm

theorem int64Cmp_eq : int64Cmp = compareLex (compareOn fun k => (int64Rank k).1)
    (compareLex (compareOn fun k => (int64Rank k).2.1) (compareOn fun k => (int64Rank k).2.2)) := by
  funext a b
  rw [int64Cmp]
  split
  case isTrue h => exact compare_beI64 h.1 h.2
  case isFalse => rfl

theorem int64Rank_injective : Function.Injective int64Rank := by
  intro a b h
  rw [int64Rank, int64Rank] at h
  split at h <;> split at h
  case isTrue.isTrue ha hb =>
    have hab : beI64 a = beI64 b := congrArg (·.2.2) h
    rw [beI64, beI64, if_neg (not_lt.mpr ((sign_iff ha.1).mp ha.2)), if_neg (not_lt.mpr ((sign_iff hb.1).mp hb.2))] at hab
    have he : bytewise a b = .eq := by
      rw [← compare_beU64 ha.1 hb.1]
      exact Nat.compare_eq_eq.mpr (by omega)
    exact LawfulEqCmp.eq_of_compare he
  case isTrue.isFalse => cases congrArg (·.2.1) h
  case isFalse.isTrue => cases congrArg (·.2.1) h
  case isFalse.isFalse => exact congrArg Prod.fst h

theorem go_then (a b : Bytes) : (caseInsensitive.go a b).then (compare a.length b.length) =
    compare (a.map asciiLowercase) (b.map asciiLowercase) := by
  induction a generalizing b
  case nil => cases b <;> rfl
  case cons c a hi =>
    cases b
    case nil => rfl
    case cons d b =>
      rw [caseInsensitive.go, Ordering.then_assoc, map_cons, map_cons]
      have hl : compare (c :: a).length (d :: b).length = compare a.length b.length := by
        simp [Nat.compare_eq_ite_lt]
      rw [hl, hi]
      exact (bytewise_cons ..).symm

theorem caseInsensitive_eq : caseInsensitive = compareLex (compareOn (map asciiLowercase)) bytewise := by
  funext a b
  rw [caseInsensitive, ← Ordering.then_assoc, go_then]
  rfl

/-- Every built-in comparator is a total order in which only identical keys are equal, and one that reports to be
bytewise is the order of the bytes. -/
theorem builtin_lawful (c : Builtin) : c.compare.Lawful ∧ (c.isBytewise → c.compare = bytewise) := by
  have hb : Comparator.Lawful bytewise := .of_trans _ fun _ _ => LawfulEqCmp.eq_of_compare
  cases c
  case memcmp => exact ⟨hb, fun _ => rfl⟩
  case lexicographic => exact ⟨hb, fun _ => rfl⟩
  case uint64 => exact ⟨(show uint64Cmp.Lawful from uint64Cmp_eq ▸ hb), nofun⟩
  case reverse =>
    exact ⟨⟨fun a b => hb.antisymm b a, fun a b c h h' => hb.trans c b a h' h, fun a b => hb.total b a,
      fun a b => (hb.eq_iff b a).trans eq_comm⟩, nofun⟩
  case int64 =>
    refine ⟨?_, nofun⟩
    rw [Builtin.compare, int64Cmp_eq]
    refine .of_trans _ fun a b h => int64Rank_injective ?_
    obtain ⟨h₁, h⟩ := Ordering.then_eq_eq.mp h
    obtain ⟨h₂, h₃⟩ := Ordering.then_eq_eq.mp h
    exact Prod.ext (LawfulEqCmp.eq_of_compare h₁) (Prod.ext (LawfulEqCmp.eq_of_compare h₂) (LawfulEqCmp.eq_of_compare h₃))
  case caseInsensitive =>
    refine ⟨?_, nofun⟩
    rw [Builtin.compare, caseInsensitive_eq]
    exact .of_trans _ fun a b h => LawfulEqCmp.eq_of_compare (Ordering.then_eq_eq.mp h).2

end OndaDb

import Mathlib.Data.List.Basic
import Mathlib.Data.Nat.Bitwise
import Mathlib.Order.Lattice

namespace OndaDb

abbrev Bytes := List UInt8

namespace Encoding

-- The base 128 bytes of a number, lowest first; all but the last have the high bit set.
def appendUvarint (x : Nat) : Bytes :=
  if x < 0x80 then [x.toUInt8] else (x.toUInt8 ||| 0x80) :: appendUvarint (x >>> 7)
termination_by x
decreasing_by simp only [Nat.shiftRight_eq_div_pow]; omega

def uvarintSlow (x s i : Nat) : Bytes → Option (Nat × Bytes)
  | [] => none
  | byte :: b =>
    if i = 10 then none
    else if byte < 0x80 then
      if i = 9 ∧ byte > 1 then none else some (x ||| byte.toNat <<< s, b)
    else uvarintSlow (x ||| (byte &&& 0x7f).toNat <<< s) (s + 7) (i + 1) b

-- The number at the front of `b` and the bytes behind it. Numbers of up to four bytes are read
-- without the loop.
def uvarint (b : Bytes) : Option (Nat × Bytes) :=
  match b with
  | [] => none
  | b0 :: r =>
    if b0 < 0x80 then some (b0.toNat, r) else
    match r with
    | [] => uvarintSlow 0 0 0 b
    | b1 :: r =>
      if b1 < 0x80 then some ((b0 &&& 0x7f).toNat ||| b1.toNat <<< 7, r) else
      match r with
      | [] => uvarintSlow 0 0 0 b
      | b2 :: r =>
        if b2 < 0x80 then
          some ((b0 &&& 0x7f).toNat ||| (b1 &&& 0x7f).toNat <<< 7 ||| b2.toNat <<< 14, r)
        else
        match r with
        | [] => uvarintSlow 0 0 0 b
        | b3 :: r =>
          if b3 < 0x80 then
            some ((b0 &&& 0x7f).toNat ||| (b1 &&& 0x7f).toNat <<< 7 |||
              (b2 &&& 0x7f).toNat <<< 14 ||| b3.toNat <<< 21, r)
          else uvarintSlow 0 0 0 b

def zigzag (x : Int) : Nat :=
  if 0 ≤ x then 2 * x.toNat else 2 * (-x).toNat - 1

def unzigzag (x : Nat) : Int :=
  if x % 2 = 0 then x / 2 else -(x / 2) - 1

def appendVarint (x : Int) : Bytes :=
  appendUvarint (zigzag x)

def varint (b : Bytes) : Option (Int × Bytes) :=
  (uvarint b).map fun (x, r) => (unzigzag x, r)

def putLe : Nat → Nat → Bytes
  | 0,     _ => []
  | n + 1, x => x.toUInt8 :: putLe n (x / 256)

def readLe : Bytes → Nat
  | [] => 0
  | b :: r => b.toNat + 256 * readLe r

def putU32 (x : Nat) : Bytes := putLe 4 x
def putU64 (x : Nat) : Bytes := putLe 8 x

theorem toNat_toUInt8_or (x : Nat) : (x.toUInt8 ||| 0x80).toNat = x % 128 + 128 := by
  have h := Nat.two_pow_add_eq_or_of_lt (i := 7) (Nat.mod_lt x (by decide : 0 < 2 ^ 7)) 1
  have : x % 256 ||| 128 = x % 128 ||| 128 := by
    apply Nat.eq_of_testBit_eq
    intro i
    have h128 : (128 : Nat) = 2 ^ 7 := rfl
    have h256 : (256 : Nat) = 2 ^ 8 := rfl
    simp only [Nat.testBit_or, h256, Nat.testBit_mod_two_pow]
    rw [h128, Nat.testBit_mod_two_pow, Nat.testBit_two_pow]
    grind
  simp only [UInt8.toNat_or, Nat.toUInt8, UInt8.toNat_ofNat']
  simp only [Nat.reducePow, Nat.mul_one] at h
  rw [show (0x80 : UInt8).toNat = 128 from rfl, this, Nat.or_comm, ← h]
  omega

theorem low_bits (x : Nat) : ((x.toUInt8 ||| 0x80) &&& 0x7f).toNat = x % 128 := by
  rw [UInt8.toNat_and, toNat_toUInt8_or, show (0x7f : UInt8).toNat = 2 ^ 7 - 1 from rfl,
    Nat.and_two_pow_sub_one_eq_mod]
  omega

theorem or_shift_split (acc x s : Nat) :
    acc ||| (x % 128) <<< s ||| (x >>> 7) <<< (s + 7) = acc ||| x <<< s := by
  have hx : x % 128 ||| (x >>> 7) <<< 7 = x := by
    apply Nat.eq_of_testBit_eq
    intro i
    rw [Nat.testBit_or, show (128 : Nat) = 2 ^ 7 from rfl, Nat.testBit_mod_two_pow,
      Nat.testBit_shiftLeft, Nat.testBit_shiftRight]
    by_cases hi : i < 7
    · simp [hi]
    · simp [hi, show 7 + (i - 7) = i by omega, show 7 ≤ i by omega]
  rw [Nat.or_assoc, Nat.add_comm s 7, Nat.shiftLeft_add, ← Nat.shiftLeft_or_distrib, hx]

theorem uvarintSlow_append (x acc i : Nat) (rest : Bytes) (hi : i ≤ 9) (hx : x < 2 ^ (64 - 7 * i)) :
    uvarintSlow acc (7 * i) i (appendUvarint x ++ rest) = some (acc ||| x <<< (7 * i), rest) := by
  induction x using Nat.strongRecOn generalizing acc i with
  | ind x ih =>
    rw [appendUvarint]
    split
    case isTrue h =>
      have hn : x.toUInt8.toNat = x := by simp; omega
      have hlt : x.toUInt8 < 0x80 := UInt8.lt_iff_toNat_lt.mpr (by rw [hn]; exact h)
      have h9 : ¬ (i = 9 ∧ x.toUInt8 > 1) := by
        rintro ⟨rfl, h1⟩
        have := UInt8.lt_iff_toNat_lt.mp h1
        rw [hn] at this
        simp only [UInt8.reduceToNat] at this
        omega
      simp only [List.cons_append, List.nil_append, uvarintSlow]
      rw [if_neg (by omega), if_pos hlt, if_neg h9, hn]
    case isFalse h =>
      have hge : ¬ (x.toUInt8 ||| 0x80) < 0x80 := by
        rw [UInt8.lt_iff_toNat_lt, toNat_toUInt8_or]
        simp
      have hi9 : i ≠ 9 := by
        rintro rfl
        omega
      have hsh : x >>> 7 < 2 ^ (64 - 7 * (i + 1)) := by
        rw [Nat.shiftRight_eq_div_pow, Nat.div_lt_iff_lt_mul (by decide), ← Nat.pow_add]
        exact lt_of_lt_of_eq hx (congrArg _ (by omega))
      have hdec : x >>> 7 < x := by
        rw [Nat.shiftRight_eq_div_pow]
        omega
      simp only [List.cons_append, uvarintSlow]
      rw [if_neg (by omega), if_neg hge, low_bits, show 7 * i + 7 = 7 * (i + 1) by omega,
        ih _ hdec _ _ (by omega) hsh, show 7 * (i + 1) = 7 * i + 7 by omega, or_shift_split]

theorem uvarint_eq_slow (b : Bytes) : uvarint b = uvarintSlow 0 0 0 b := by
  simp only [uvarint]
  repeat' split
  all_goals simp [uvarintSlow, *]

theorem uvarint_append (hx : x < 2 ^ 64) (rest : Bytes) :
    uvarint (appendUvarint x ++ rest) = some (x, rest) := by
  have := uvarintSlow_append x 0 0 rest (by omega) (by simpa using hx)
  simpa [uvarint_eq_slow] using this

theorem unzigzag_zigzag (x : Int) : unzigzag (zigzag x) = x := by
  simp only [zigzag, unzigzag]
  split <;> split <;> omega

theorem varint_append (hl : -2 ^ 63 ≤ x) (hu : x < 2 ^ 63) (rest : Bytes) :
    varint (appendVarint x ++ rest) = some (x, rest) := by
  have hz : zigzag x < 2 ^ 64 := by
    simp only [zigzag]
    split <;> omega
  simp [varint, appendVarint, uvarint_append hz, unzigzag_zigzag]

@[simp] theorem length_putLe (n x : Nat) : (putLe n x).length = n := by
  induction n generalizing x with
  | zero => rfl
  | succ n ih => simp [putLe, ih]

theorem readLe_putLe (n x : Nat) : readLe (putLe n x) = x % 256 ^ n := by
  induction n generalizing x with
  | zero => simp [putLe, readLe, Nat.mod_one]
  | succ n ih =>
    simp only [putLe, readLe, ih, Nat.pow_succ', Nat.mod_mul]
    simp

theorem readLe_lt (b : Bytes) : readLe b < 256 ^ b.length := by
  induction b
  case nil => decide
  case cons x b ih =>
    have := x.toNat_lt
    rw [readLe, List.length_cons, Nat.pow_succ]
    omega

theorem putLe_readLe (h : b.length = n) : putLe n (readLe b) = b := by
  induction b generalizing n
  case nil => subst h; rfl
  case cons x b ih =>
    subst h
    have hx := x.toNat_lt
    have hhead : (x.toNat + 256 * readLe b).toUInt8 = x := by
      apply UInt8.toNat_inj.mp
      rw [Nat.toUInt8_eq, UInt8.toNat_ofNat']
      omega
    have htail : (x.toNat + 256 * readLe b) / 256 = readLe b := by omega
    rw [List.length_cons, readLe, putLe, hhead, htail, ih rfl]

end Encoding

end OndaDb

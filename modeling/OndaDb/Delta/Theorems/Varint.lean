import OndaDb.Catalog.Theorems.Codec

-- A number that is read takes at least the bytes it is written in.
namespace OndaDb.Encoding

open Reader

theorem appendUvarint_ne_nil (x : Nat) : appendUvarint x ≠ [] := by
  unfold appendUvarint
  split <;> simp

theorem longForm_cons (hp : LongForm p (appendUvarint v)) (hz : ¬z < (0x80 : UInt8)) :
    LongForm (z :: p) (appendUvarint ((z &&& 0x7f).toNat + 128 * v)) := by
  have hlow : (z &&& 0x7f).toNat = z.toNat % 128 := by
    rw [UInt8.toNat_and, show (0x7f : UInt8).toNat = 2 ^ 7 - 1 from rfl, Nat.and_two_pow_sub_one_eq_mod]
  have hz' : 128 ≤ z.toNat := Nat.le_of_not_lt fun h => hz (UInt8.lt_iff_toNat_lt.mpr h)
  have hlt := z.toNat_lt
  rw [appendUvarint]
  split
  case isTrue hv =>
    -- The number is small, and the last of its bytes is 0.
    have hpos : 0 < p.length :=
      (List.length_pos_of_ne_nil (appendUvarint_ne_nil v)).trans_le hp.length_le
    constructor
    case length_le => simp
    case eq => intro h; simp only [List.length_cons, List.length_nil] at h; omega
  case isFalse hv =>
    have hhead : (((z &&& 0x7f).toNat + 128 * v).toUInt8 ||| 0x80) = z := by
      apply UInt8.toNat_inj.mp
      rw [toNat_toUInt8_or, hlow]
      omega
    have htail : ((z &&& 0x7f).toNat + 128 * v) >>> 7 = v := by
      rw [Nat.shiftRight_eq_div_pow, hlow]
      omega
    rw [hhead, htail]
    exact (LongForm.refl [z]).append hp

theorem uvarintSlow_longForm (hi : i ≤ 10) (h : uvarintSlow acc s i b = some (y, rest)) :
    ∃ p v, b = p ++ rest ∧ y = acc ||| v <<< s ∧ v < 2 ^ (64 - 7 * i) ∧ LongForm p (appendUvarint v) := by
  induction b generalizing acc s i
  case nil => cases h
  case cons z b ih =>
    unfold uvarintSlow at h
    split at h
    case isTrue => cases h
    case isFalse hi' =>
      split at h
      case isTrue hz =>
        split at h
        case isTrue => cases h
        case isFalse h9 =>
          cases h
          have hz' : z.toNat < 128 := UInt8.lt_iff_toNat_lt.mp hz
          refine ⟨[z], z.toNat, rfl, rfl, ?_, ?_⟩
          · by_cases hi9 : i = 9
            case pos =>
              have : ¬1 < z.toNat := fun h => h9 ⟨hi9, UInt8.lt_iff_toNat_lt.mpr h⟩
              subst hi9
              rw [show 2 ^ (64 - 7 * 9) = 2 from rfl]
              omega
            have h128 : 2 ^ 7 ≤ 2 ^ (64 - 7 * i) := Nat.pow_le_pow_right (by decide) (by omega)
            exact hz'.trans_le h128
          · rw [appendUvarint, if_pos hz', Nat.toUInt8_eq, UInt8.ofNat_toNat]
            exact .refl _
      case isFalse hz =>
        have hi9 : i ≠ 9 := by
          rintro rfl
          cases b <;> simp [uvarintSlow] at h
        obtain ⟨p, v, rfl, rfl, hv, hp⟩ := ih (by omega) h
        have hlow : (z &&& 0x7f).toNat < 128 := by
          rw [UInt8.toNat_and]
          exact Nat.lt_of_le_of_lt Nat.and_le_right (by decide)
        refine ⟨z :: p, (z &&& 0x7f).toNat + 128 * v, rfl, ?_, ?_, longForm_cons hp hz⟩
        · have hsplit := or_shift_split acc ((z &&& 0x7f).toNat + 128 * v) s
          have hmod : ((z &&& 0x7f).toNat + 128 * v) % 128 = (z &&& 0x7f).toNat := by omega
          have hdiv : ((z &&& 0x7f).toNat + 128 * v) >>> 7 = v := by
            rw [Nat.shiftRight_eq_div_pow]
            omega
          rwa [hmod, hdiv] at hsplit
        · have hpow : 2 ^ (64 - 7 * i) = 128 * 2 ^ (64 - 7 * (i + 1)) := by
            rw [← Nat.pow_add' 2 (64 - 7 * (i + 1)) 7]
            exact congrArg _ (by omega)
          omega

theorem uvarint_longForm (h : uvarint b = some (x, rest)) :
    ∃ p, b = p ++ rest ∧ x < 2 ^ 64 ∧ LongForm p (appendUvarint x) := by
  rw [uvarint_eq_slow] at h
  obtain ⟨p, v, hb, rfl, hv, hp⟩ := uvarintSlow_longForm (by omega) h
  rw [Nat.zero_or, Nat.shiftLeft_zero]
  exact ⟨p, hb, hv, hp⟩

theorem zigzag_unzigzag (x : Nat) : zigzag (unzigzag x) = x := by
  simp only [zigzag, unzigzag]
  split <;> split <;> omega

theorem varint_longForm (h : varint b = some (t, rest)) :
    ∃ p, b = p ++ rest ∧ -2 ^ 63 ≤ t ∧ t < 2 ^ 63 ∧ LongForm p (appendVarint t) := by
  obtain ⟨⟨x, r⟩, hx, he⟩ := Option.map_eq_some_iff.mp h
  cases he
  obtain ⟨p, hb, hlt, hp⟩ := uvarint_longForm hx
  refine ⟨p, hb, ?_, ?_, ?_⟩
  · simp only [unzigzag]
    split <;> omega
  · simp only [unzigzag]
    split <;> omega
  · rwa [appendVarint, zigzag_unzigzag]

theorem length_appendUvarint (x : Nat) : (appendUvarint x).length =
    if x < 128 then 1 else (appendUvarint (x / 128)).length + 1 := by
  conv_lhs => rw [appendUvarint]
  rw [Nat.shiftRight_eq_div_pow]
  split <;> rfl

theorem length_appendUvarint_mono (h : x ≤ y) : (appendUvarint x).length ≤ (appendUvarint y).length := by
  induction x using Nat.strongRecOn generalizing y
  case ind x ih =>
    rw [length_appendUvarint x, length_appendUvarint y]
    split
    case isTrue => split <;> omega
    rw [if_neg (by omega)]
    exact Nat.succ_le_succ (ih (x / 128) (by omega) (by omega))

theorem length_appendUvarint_add_le (x k : Nat) : (appendUvarint (x + k)).length ≤ (appendUvarint x).length + k := by
  have hsucc (x : Nat) : (appendUvarint (x + 1)).length ≤ (appendUvarint x).length + 1 := by
    induction x using Nat.strongRecOn
    case ind x ih =>
      rw [length_appendUvarint (x + 1), length_appendUvarint x]
      split
      case isTrue => omega
      split
      case isTrue =>
        rw [show (x + 1) / 128 = 1 by omega, length_appendUvarint, if_pos (by decide)]
      have hmono := length_appendUvarint_mono (show (x + 1) / 128 ≤ x / 128 + 1 by omega)
      have := ih (x / 128) (by omega)
      omega
  induction k
  case zero => exact le_rfl
  case succ k ih =>
    have := hsucc (x + k)
    rw [Nat.add_assoc] at this
    omega

end OndaDb.Encoding

import OndaDb.Entity.Basic
import OndaDb.Lib.Checks
import OndaDb.Wal.Theorems.Checked

-- Which frames the decoder takes, and which of them the encoder writes.
namespace OndaDb.Entity

open Checks Encoding Wal.Checked Reader List

theorem uvarintLen_eq (x : Nat) : uvarintLen x = (appendUvarint x).length := by
  induction x using Nat.strongRecOn
  case ind x ih =>
    rw [uvarintLen, appendUvarint]
    split
    case isTrue => rfl
    case isFalse => rw [ih _ (by rw [Nat.shiftRight_eq_div_pow]; omega), length_cons]

theorem and_low {c : UInt8} (hc : c < 0x80) : (c &&& 0x7f).toNat = c.toNat := by
  rw [UInt8.toNat_and, show (0x7f : UInt8).toNat = 2 ^ 7 - 1 from rfl, Nat.and_two_pow_sub_one_eq_mod]
  exact Nat.mod_eq_of_lt (UInt8.lt_iff_toNat_lt.mp hc)

-- The bounded reader is the unbounded one, within its bounds.
theorem of_boundedVarintFrom {b : Bytes} (h : boundedVarintFrom x s i b = some (y, w)) (hi : i ≤ 5) :
    ∃ p rest, b = p ++ rest ∧ w = i + p.length ∧ w ≤ 5 ∧ y ≤ 0xFFFFFFFF ∧
      ∀ rest, uvarintSlow x s i (p ++ rest) = some (y, rest) := by
  induction b generalizing x s i
  case nil => cases h
  case cons c b ih =>
    rw [boundedVarintFrom] at h
    split at h
    case isTrue => cases h
    case isFalse h5 =>
      have h5 : i < 5 := Nat.lt_of_le_of_ne hi h5
      dsimp only at h
      split at h
      case isTrue hc =>
        split at h
        case isFalse => cases h
        case isTrue hx =>
          cases h
          refine ⟨[c], b, rfl, rfl, h5, hx, fun rest => ?_⟩
          rw [singleton_append, uvarintSlow, if_neg (by omega), if_pos hc, if_neg (by omega), and_low hc]
      case isFalse hc =>
        obtain ⟨p, rest, rfl, rfl, hw, hy, hs⟩ := ih h h5
        refine ⟨c :: p, rest, rfl, by simp; omega, hw, hy, fun rest => ?_⟩
        rw [cons_append, uvarintSlow, if_neg (by omega), if_neg hc]
        exact hs rest

theorem boundedVarintFrom_eq {x s i y : Nat} (h : uvarintSlow x s i (p ++ rest) = some (y, rest))
    (hp : i + p.length ≤ 5) (hy : y ≤ 0xFFFFFFFF) :
    boundedVarintFrom x s i (p ++ rest) = some (y, i + p.length) := by
  induction p generalizing x s i
  case nil =>
    obtain ⟨q, v, hq, -, -, hl⟩ := uvarintSlow_longForm (by omega) h
    have := hl.length_le.trans_lt' (length_pos_of_ne_nil (appendUvarint_ne_nil v))
    have := congrArg length hq
    rw [nil_append, length_append] at this
    omega
  case cons c p ih =>
    rw [length_cons] at hp
    rw [cons_append, uvarintSlow, if_neg (by omega)] at h
    rw [cons_append, boundedVarintFrom, if_neg (show ¬i = maxVarint by simp [maxVarint]; omega)]
    dsimp only
    split at h
    case isTrue hc =>
      rw [if_neg (by omega), Option.some.injEq, Prod.mk.injEq] at h
      obtain ⟨rfl, hrest⟩ := h
      have hp : p = [] := by simpa using hrest
      rw [if_pos hc, and_low hc, if_pos hy, hp]
      rfl
    case isFalse hc =>
      rw [if_neg hc, ih h (by omega), length_cons]
      exact congrArg some (by simp; omega)

structure Spelled (p : Bytes) (x : Nat) : Prop where
  length_le : p.length ≤ 5
  le : x ≤ 0xFFFFFFFF
  reads : ∀ rest, uvarint (p ++ rest) = some (x, rest)

namespace Spelled

variable {p : Bytes} {x : Nat}

theorem of_boundedVarint (h : boundedVarint b = some (x, w)) :
    ∃ p rest, b = p ++ rest ∧ w = p.length ∧ Spelled p x := by
  obtain ⟨p, rest, hb, hw, h5, hx, hs⟩ := of_boundedVarintFrom h (by omega)
  rw [Nat.zero_add] at hw
  exact ⟨p, rest, hb, hw, hw ▸ h5, hx, fun rest => by rw [uvarint_eq_slow]; exact hs rest⟩

theorem boundedVarint (h : Spelled p x) (rest : Bytes) : boundedVarint (p ++ rest) = some (x, p.length) := by
  have := boundedVarintFrom_eq (by rw [← uvarint_eq_slow]; exact h.reads rest) (by simpa using h.length_le) h.le
  rwa [Nat.zero_add] at this

theorem longForm (h : Spelled p x) : LongForm p (appendUvarint x) := by
  obtain ⟨q, hq, -, hl⟩ := uvarint_longForm (h.reads [])
  rw [append_nil, append_nil] at hq
  exact hq ▸ hl

theorem append (hx : x ≤ 0xFFFFFFFF) : Spelled (appendUvarint x) x where
  length_le := by
    have h5 : (appendUvarint 0xFFFFFFFF).length = 5 := by simp [length_appendUvarint]
    exact h5 ▸ length_appendUvarint_mono hx
  le := hx
  reads := uvarint_append (by omega)

end Spelled

theorem of_region (h : region dir pos = .ok (some (off, x, pos'))) :
    ∃ p rest, At dir pos (putU32 off ++ (p ++ rest)) ∧ At dir pos' rest ∧ Spelled p x ∧ off < 2 ^ 32 ∧
      pos' = pos + (4 + p.length) := by
  rw [region] at h
  split at h
  case isFalse => cases h
  case isTrue hle =>
    have ha : At dir (pos + 4) (dir.drop (pos + 4)) := ⟨hle, rfl⟩
    rw [ha.sliceFrom] at h
    obtain ⟨v, hv, hx⟩ := Option.map_eq_some_iff.mp (Except.ok.inj h)
    cases hx
    obtain ⟨p, rest, hb, hw, hs⟩ := Spelled.of_boundedVarint (w := v.2) hv
    have h4 : ((dir.drop pos).take 4).length = 4 := by rw [length_take, length_drop]; omega
    have hlt := readLe_lt ((dir.drop pos).take 4)
    rw [h4] at hlt
    refine ⟨p, rest, ⟨by omega, ?_⟩, ?_, hs, hlt, by omega⟩
    · rw [putU32, putLe_readLe h4, ← hb, ← drop_drop, take_append_drop]
    · rw [hb] at ha
      exact hw ▸ ha.append

theorem region_eq (h : At dir pos (putU32 off ++ (p ++ rest))) (hp : Spelled p x) (ho : off < 2 ^ 32) :
    region dir pos = .ok (some (off, x, pos + (4 + p.length))) ∧ At dir (pos + (4 + p.length)) rest := by
  have h4 : At dir (pos + 4) (p ++ rest) := by simpa [putU32] using h.append
  have hoff : readLe ((dir.drop pos).take 4) = off := by
    rw [h.drop, take_left' (by simp [putU32]), putU32, readLe_putLe]
    exact Nat.mod_eq_of_lt ho
  refine ⟨?_, Nat.add_assoc pos 4 _ ▸ h4.append⟩
  rw [region, if_pos h4.le, h4.sliceFrom]
  change Except.ok _ = _
  rw [hp.boundedVarint, Option.map_some, hoff, Nat.add_assoc]

theorem ends_region (dir : Bytes) (pos : Nat) : ∃ o, region dir pos = .ok o := by
  rw [region]
  split
  case isTrue hle => rw [sliceFrom, if_pos hle]; exact ⟨_, rfl⟩
  case isFalse => exact ⟨none, rfl⟩

theorem ends_dirEntry (dir : Bytes) (pos : Nat) : ∃ o, dirEntry dir pos = .ok o := by
  obtain ⟨o, ho⟩ := ends_region dir pos
  rw [dirEntry, ho]
  cases o
  case none => exact ⟨none, rfl⟩
  case some r =>
    obtain ⟨o', ho'⟩ := ends_region dir r.2.2
    change ∃ o, (region dir r.2.2 >>= _) = _
    rw [ho']
    cases o'
    case none => exact ⟨none, rfl⟩
    case some => exact ⟨_, rfl⟩

theorem of_dirEntry {dir : Bytes} {e : DirEntry} (h : dirEntry dir pos = .ok (some (e, pos'))) :
    ∃ p q rest, At dir pos (putU32 e.nameOff ++ (p ++ (putU32 e.valOff ++ (q ++ rest)))) ∧ At dir pos' rest ∧
      Spelled p e.nameLen ∧ Spelled q e.valLen ∧ e.nameOff < 2 ^ 32 ∧ e.valOff < 2 ^ 32 ∧
      pos' = pos + (4 + p.length) + (4 + q.length) := by
  rw [dirEntry] at h
  obtain ⟨o, ho, h⟩ := then_eq_ok.mp h
  cases o
  case none => cases h
  case some r =>
    obtain ⟨o', ho', h⟩ := then_eq_ok.mp h
    cases o'
    case none => cases h
    case some r' =>
      cases h
      obtain ⟨p, rest, h₁, h₂, hp, hoff, hpos⟩ := of_region ho
      obtain ⟨q, rest', h₁', h₂', hq, hoff', hpos'⟩ := of_region ho'
      obtain rfl := h₂.drop.symm.trans h₁'.drop
      exact ⟨p, q, rest', h₁, h₂', hp, hq, hoff, hoff', by rw [hpos', hpos]⟩

theorem dirEntry_eq (h : At dir pos (putU32 e.nameOff ++ (p ++ (putU32 e.valOff ++ (q ++ rest)))))
    (hp : Spelled p e.nameLen) (hq : Spelled q e.valLen) (hno : e.nameOff < 2 ^ 32) (hvo : e.valOff < 2 ^ 32) :
    dirEntry dir pos = .ok (some (e, pos + (4 + p.length) + (4 + q.length))) ∧
      At dir (pos + (4 + p.length) + (4 + q.length)) rest := by
  obtain ⟨h₁, h₂⟩ := region_eq h hp hno
  obtain ⟨h₁', h₂'⟩ := region_eq h₂ hq hvo
  refine ⟨?_, h₂'⟩
  rw [dirEntry, h₁]
  change (region dir _ >>= _) = _
  rw [h₁']
  rfl

inductive Laid : Nat → List EntityColumn → Bytes → Prop
  | nil {off : Nat} : Laid off [] []
  | cons {off : Nat} {c : EntityColumn} {cols : List EntityColumn} {p q rest : Bytes} (hp : Spelled p c.name.length)
      (hq : Spelled q c.value.length) (h : Laid (off + c.name.length + c.value.length) cols rest) :
      Laid off (c :: cols) (putU32 off ++ (p ++ (putU32 (off + c.name.length) ++ (q ++ rest))))

theorem Laid.longForm (h : Laid off cols d) :
    LongForm d (directory off cols) := by
  induction h
  case nil => exact .refl []
  case cons hp hq _ ih =>
    simp only [directory, append_assoc]
    exact (LongForm.refl _).append (hp.longForm.append ((LongForm.refl _).append (hq.longForm.append ih)))

theorem laid_directory (h : off + (payload cols).length ≤ 0xFFFFFFFF) :
    Laid off cols (directory off cols) := by
  induction cols generalizing off
  case nil => exact .nil
  case cons c cols ih =>
    simp only [payload, flatMap_cons, length_append] at h
    simp only [directory, append_assoc]
    exact .cons (.append (by omega)) (.append (by omega)) (ih (by rw [payload]; omega))

def Named (cols : List EntityColumn) : Prop :=
  ∀ c ∈ cols, c.name.length ≠ 0 ∧ c.name.length ≤ maxEntityNameLen

def shortest (dir : Bytes) (pos : Nat) : Nat → Bool
  | 0 => true
  | count + 1 =>
    match dirEntry dir pos with
    | .ok (some (e, next)) =>
      next = pos + (4 + uvarintLen e.nameLen) + (4 + uvarintLen e.valLen) && shortest dir next count
    | _ => false

section

variable {dir pay rest tail : Bytes} {i cursor pos cursor' pos' n : Nat} {cols : List EntityColumn}

structure Passed (dir pay : Bytes) (cursor pos cursor' pos' : Nat) (cols : List EntityColumn) (d : Bytes) : Prop where
  collected : ∀ dst, collect dir pay dst pos cols.length = .ok (dst ++ cols)
  laid : Laid cursor cols d
  named : Named cols
  inDir : ∃ rest, At dir pos (d ++ rest) ∧ At dir pos' rest
  inPay : ∃ rest, At pay cursor (payload cols ++ rest) ∧ At pay cursor' rest
  short : shortest dir pos cols.length = true ↔ d.length = (directory cursor cols).length

theorem of_validate (h : validate dir pay.length i cursor pos n = .ok (cursor', pos')) (hc : cursor ≤ pay.length)
    (hp : pos ≤ dir.length) : ∃ cols d, cols.length = n ∧ Passed dir pay cursor pos cursor' pos' cols d := by
  induction n generalizing i cursor pos
  case zero =>
    cases h
    exact ⟨[], [], rfl, fun dst => by rw [append_nil]; rfl, .nil, nofun, ⟨_, ⟨hp, rfl⟩, ⟨hp, rfl⟩⟩,
      ⟨_, ⟨hc, rfl⟩, ⟨hc, rfl⟩⟩, by simp [Entity.shortest, directory]⟩
  case succ n ih =>
    rw [validate] at h
    obtain ⟨o, ho, h⟩ := then_eq_ok.mp h
    cases o
    case none => cases h
    case some e =>
      obtain ⟨⟨nameOff, nameLen, valOff, valLen⟩, next⟩ := e
      obtain ⟨p, q, rest, hat, hnext, hp', hq, hno, hvo, rfl⟩ := of_dirEntry ho
      simp only [guard_eq_ok, not_or, not_not, not_lt] at h
      obtain ⟨⟨hn0, hn1⟩, ⟨rfl, hn2⟩, ⟨rfl, hv2⟩, h⟩ := h
      obtain ⟨cols, d, rfl, hc⟩ := ih h hv2 hnext.le
      have hat₀ : At pay nameOff (pay.drop nameOff) := ⟨‹_›, rfl⟩
      obtain ⟨name, r, hr, rfl⟩ := hat₀.split hn2
      rw [hr] at hat₀
      obtain ⟨value, r', rfl, rfl⟩ := hat₀.append.split hv2
      have hat₁ := hat₀.append
      obtain ⟨rest', hd, hd'⟩ := hc.inDir
      obtain ⟨tail, hy, hy'⟩ := hc.inPay
      obtain rfl := hnext.drop.symm.trans hd.drop
      obtain rfl := hat₁.append.drop.symm.trans hy.drop
      refine ⟨⟨name, value⟩ :: cols, _, rfl, ?_, .cons hp' hq hc.laid, forall_mem_cons.mpr ⟨⟨hn0, hn1⟩, hc.named⟩,
        ⟨rest', by simpa using hat, hd'⟩, ⟨tail, by simpa [payload] using hat₀, hy'⟩, ?_⟩
      case refine_1 =>
        intro dst
        rw [length_cons, collect, ho]
        change (slice pay _ _ >>= fun _ => slice pay _ _ >>= _) = _
        rw [hat₀.slice]
        change (slice pay _ _ >>= _) = _
        rw [hat₁.slice]
        change collect dir pay _ _ _ = _
        rw [hc.collected, append_assoc, singleton_append]
      case refine_2 =>
        have h₁ := hp'.longForm.length_le
        have h₂ := hq.longForm.length_le
        have h₃ := hc.laid.longForm.length_le
        simp only [length_cons, Entity.shortest, ho, Bool.and_eq_true, decide_eq_true_eq, hc.short, directory,
          length_append, uvarintLen_eq, putU32, length_putLe]
        dsimp only at h₁ h₂ h₃ ⊢
        omega

theorem passes_of_laid (h : Laid cursor cols d) (hd : At dir pos (d ++ rest))
    (hy : At pay cursor (payload cols ++ tail)) (hn : Named cols) (hpay : pay.length < 2 ^ 32) :
    validate dir pay.length i cursor pos cols.length = .ok (cursor + (payload cols).length, pos + d.length) ∧
      ∀ dst, collect dir pay dst pos cols.length = .ok (dst ++ cols) := by
  induction h generalizing i pos
  case nil => exact ⟨by simp [validate, payload], fun dst => by rw [append_nil]; rfl⟩
  case cons off c cols p q rest' hp hq h ih =>
    simp only [payload, flatMap_cons, append_assoc] at hd hy
    have hle := hy.append.append.le
    obtain ⟨he, hnext⟩ := dirEntry_eq (e := ⟨off, c.name.length, off + c.name.length, c.value.length⟩) hd hp hq
      (by simp only; omega) (by simp only; omega)
    obtain ⟨h₁, h₂⟩ := ih (i := i + 1) hnext hy.append.append (forall_mem_cons.mp hn).2
    have hc := (forall_mem_cons.mp hn).1
    constructor
    case left =>
      rw [length_cons, validate, he]
      change (if _ then _ else if _ then _ else if _ then _ else validate dir pay.length _ _ _ _) = _
      rw [if_neg (by dsimp only; omega), if_neg (by dsimp only; omega), if_neg (by dsimp only; omega)]
      simp only [h₁, payload, flatMap_cons, length_append, putU32, length_putLe, Except.ok.injEq,
        Prod.mk.injEq]
      omega
    case right =>
      intro dst
      rw [length_cons, collect, he]
      change (slice pay _ _ >>= fun _ => slice pay _ _ >>= _) = _
      rw [hy.slice]
      change (slice pay _ _ >>= _) = _
      rw [hy.append.slice]
      change collect dir pay _ _ _ = _
      rw [h₂, append_assoc, singleton_append]

end

section

variable {cols : List EntityColumn} {i total n : Nat}

def size (cols : List EntityColumn) : Nat :=
  (cols.map columnSize).sum

theorem checkColumns_eq_ok (h : total ≤ maxEntityBytes) :
    checkColumns i total cols = .ok n ↔ Named cols ∧ n = total + size cols ∧ n ≤ maxEntityBytes := by
  induction cols generalizing i total
  case nil => simp [checkColumns, Named, size, eq_comm]; omega
  case cons c cols ih =>
    simp only [checkColumns, guard_eq_ok, not_lt]
    rw [Named, forall_mem_cons, ← Named]
    constructor
    case mp =>
      rintro ⟨h0, h1, h2, h⟩
      obtain ⟨hn, rfl, hle⟩ := (ih h2).mp h
      exact ⟨⟨⟨h0, h1⟩, hn⟩, by simp [size]; omega, hle⟩
    case mpr =>
      rintro ⟨⟨⟨h0, h1⟩, hn⟩, hs, hle⟩
      simp only [size, map_cons, sum_cons] at hs
      exact ⟨h0, h1, by omega, (ih (by omega)).mpr ⟨hn, by rw [size]; omega, hle⟩⟩

theorem length_directory (off : Nat) (cols : List EntityColumn) :
    (directory off cols).length + (payload cols).length = size cols := by
  induction cols generalizing off
  case nil => rfl
  case cons c cols ih =>
    have := ih (off + c.name.length + c.value.length)
    simp only [directory, payload, size, columnSize, flatMap_cons, map_cons, sum_cons,
      length_append, uvarintLen_eq, putU32, length_putLe] at this ⊢
    omega

theorem mul_le_length_directory (off : Nat) (cols : List EntityColumn) :
    cols.length * minDirEntry ≤ (directory off cols).length := by
  induction cols generalizing off
  case nil => simp
  case cons c cols ih =>
    have := ih (off + c.name.length + c.value.length)
    have h₁ := length_pos_of_ne_nil (appendUvarint_ne_nil c.name.length)
    have h₂ := length_pos_of_ne_nil (appendUvarint_ne_nil c.value.length)
    simp only [directory, length_append, length_cons, putU32, length_putLe, minDirEntry] at this ⊢
    omega

end

structure Framed (value dir pay tail : Bytes) (n : Nat) : Prop where
  eq : value = header (fixedHeader + dir.length) n ++ (dir ++ (pay ++ tail))
  tail : tail.length = 4
  length : value.length ≤ maxEntityBytes
  count : n ≤ maxEntityColumns
  fits : n * minDirEntry ≤ dir.length
  passes : validate dir pay.length 0 0 0 n = .ok (pay.length, dir.length)

theorem readLe_word (hx : x ≤ maxEntityBytes) : readLe (putU32 x) = x := by
  rw [putU32, readLe_putLe]
  exact Nat.mod_eq_of_lt (lt_of_le_of_lt hx (by decide))

theorem length_header (h n : Nat) : (header h n).length = fixedHeader := by
  simp [header, magic, putU32, fixedHeader]

theorem Framed.length_eq {value dir pay tail : Bytes} {n : Nat} (h : Framed value dir pay tail n) :
    value.length = fixedHeader + dir.length + pay.length + 4 := by
  simp only [h.eq, length_append, length_header, h.tail]
  omega

theorem eq_singleton {x : UInt8} (h : v.length = 1) (hx : v.headI.toNat = x.toNat) : v = [x] := by
  obtain ⟨y, rfl⟩ := length_eq_one_iff.mp h
  rw [show y = x from UInt8.toNat_inj.mp hx]

theorem layout_eq_ok {value : Bytes} {l : Layout} :
    layout value = .ok l ↔ ∃ tail, Framed value l.dir l.payload tail l.count := by
  simp only [layout, guard_eq_ok, then_eq_ok, not_not, not_or, not_lt]
  constructor
  case mp =>
    rintro ⟨⟨hmin, hmax⟩, _, h₀, rfl, v, h₁, f, h₂, hv, hf, a, h₃, b, h₄, ⟨hlow, -⟩, hcount, hfits, dir, h₅, pay, h₆,
      ⟨cursor, pos⟩, hpass, hpos, hcursor, hl⟩
    cases hl
    dsimp only at hpos hcursor
    obtain ⟨r, hr, at₁, -⟩ := (At.zero value).of_slice h₀
    obtain ⟨r, rfl, at₂, lv⟩ := at₁.of_slice h₁
    obtain ⟨r, rfl, at₃, lf⟩ := at₂.of_slice h₂
    obtain ⟨r, rfl, at₄, la⟩ := at₃.of_slice h₃
    obtain ⟨r, rfl, at₅, lb⟩ := at₄.of_slice h₄
    obtain ⟨r, rfl, at₆, ld⟩ := at₅.of_slice h₅
    obtain ⟨r, rfl, at₇, -⟩ := at₆.of_slice h₆
    have hv : v = [1] := eq_singleton (by omega) hv
    have hf : f = [0] := eq_singleton (by omega) hf
    have hd : fixedHeader + dir.length = readLe a := ld
    refine ⟨r, ?_, ?_, hmax, hcount, by dsimp only; omega, by rw [hpass, hpos, hcursor]⟩
    case refine_1 =>
      rw [header, hd, putU32, putU32, putLe_readLe (by omega), putLe_readLe (by omega), hr, hv, hf]
      simp only [append_assoc, cons_append, nil_append]
    case refine_2 =>
      have hlen := at₇.length
      simp only [minFrame, fixedHeader] at hmin
      omega
  case mpr =>
    rintro ⟨tail, hf⟩
    have hsum := hf.length_eq
    obtain ⟨heq, htail, hlen, hcount, hfits, hpass⟩ := hf
    have at₀ : At value 0 (magic ++ ([1] ++ ([0] ++ (putU32 (fixedHeader + l.dir.length) ++ (putU32 l.count ++
        (l.dir ++ (l.payload ++ tail))))))) := ⟨Nat.zero_le _, by rw [heq, header]; simp⟩
    have at₃ := at₀.append.append.append
    have at₅ := at₃.append.append
    have hH := readLe_word (x := fixedHeader + l.dir.length) (by omega)
    have hN := readLe_word (x := l.count) (hcount.trans (by decide))
    refine ⟨⟨by rw [hsum, minFrame]; omega, hlen⟩, _, at₀.slice, rfl, _, at₀.append.slice, _, at₀.append.append.slice, rfl, rfl,
      _, at₃.slice, _, at₃.append.slice, ⟨by rw [hH]; omega, by rw [hH]; omega⟩, by rw [hN]; exact hcount,
      by rw [hH, hN]; omega, l.dir, ?_, l.payload, ?_, (l.payload.length, l.dir.length), ?_, rfl, rfl, ?_⟩
    case refine_1 => rw [hH]; exact at₅.slice
    case refine_2 =>
      rw [hH, hsum, Nat.add_sub_cancel]
      exact at₅.append.slice
    case refine_3 => rw [hN]; exact hpass
    case refine_4 => rw [hN]

section

variable {names others : List Bytes} {table : List Nat} {k : Nat}

-- From any slot the walk comes past every other one.
theorem probe_ok (name : Bytes) (i rounds : Nat) (hlen : table.length = 2 ^ k) (hh : h < 2 ^ k)
    (hslots : ∀ x ∈ table, x ≤ names.length) (hfree : ∃ j < rounds, table[(h + j) % 2 ^ k]? = some 0) :
    ∃ r, probe names (2 ^ k - 1) i name table rounds h = .ok r ∧
      ∀ t, r = .inl t → ∃ j, table[j]? = some 0 ∧ t = table.set j (i + 1) := by
  induction rounds generalizing h
  case zero => obtain ⟨_, hj, -⟩ := hfree; cases hj
  case succ rounds ih =>
    rw [probe]
    have hx : table[h]? = some (table.get ⟨h, hlen ▸ hh⟩) := getElem?_eq_getElem _
    have hle := hslots _ (get_mem table ⟨h, hlen ▸ hh⟩)
    generalize table.get ⟨h, hlen ▸ hh⟩ = x at hx hle
    rw [hx]
    cases x
    case zero => exact ⟨_, rfl, fun t ht => ⟨h, hx, (Sum.inl.inj ht).symm⟩⟩
    case succ j =>
      dsimp only
      rw [getElem?_eq_getElem hle]
      dsimp only
      split
      case isTrue => exact ⟨_, rfl, nofun⟩
      rw [Nat.and_two_pow_sub_one_eq_mod]
      refine ih (Nat.mod_lt _ (Nat.two_pow_pos k)) ?_
      obtain ⟨j', hj', hz⟩ := hfree
      cases j'
      case zero =>
        rw [Nat.add_zero, Nat.mod_eq_of_lt hh, hx] at hz
        cases hz
      case succ j' => exact ⟨j', by omega, by rw [Nat.mod_add_mod, Nat.add_right_comm]; exact hz⟩

theorem fill_ok (hlen : table.length = 2 ^ k) (hslots : ∀ x ∈ table, x ≤ names.length)
    (hused : table.countP (· ≠ 0) = i) (hi : i + others.length = names.length) (hk : names.length < 2 ^ k) :
    ∃ r, fill names (2 ^ k - 1) i table others = .ok r := by
  induction others generalizing i table
  case nil => exact ⟨none, rfl⟩
  case cons name others ih =>
    rw [length_cons] at hi
    -- Fewer slots are taken than there are.
    obtain ⟨z, hz⟩ : ∃ z, table[z]? = some 0 := by
      by_contra hno
      have hall : ∀ x ∈ table, decide (x ≠ 0) = true := by
        intro x hx
        obtain ⟨z, hz⟩ := mem_iff_getElem?.mp hx
        exact decide_eq_true fun h0 => hno ⟨z, h0 ▸ hz⟩
      have := countP_eq_length.mpr hall
      omega
    have hzlt : z < 2 ^ k := hlen ▸ (List.getElem?_eq_some_iff.mp hz).1
    rw [fill, Nat.and_two_pow_sub_one_eq_mod]
    have hh := Nat.mod_lt (nameHash name).toNat (Nat.two_pow_pos k)
    generalize (nameHash name).toNat % 2 ^ k = h at hh
    have hfree : table[(h + (z + 2 ^ k - h) % 2 ^ k) % 2 ^ k]? = some 0 := by
      rw [Nat.add_mod_mod, show h + (z + 2 ^ k - h) = z + 2 ^ k by omega, Nat.add_mod_right, Nat.mod_eq_of_lt hzlt]
      exact hz
    obtain ⟨r, hr, hset⟩ := probe_ok name i table.length hlen hh hslots
      ⟨_, by rw [hlen]; exact Nat.mod_lt _ (Nat.two_pow_pos k), hfree⟩
    rw [hr]
    cases r
    case inr => exact ⟨_, rfl⟩
    case inl t =>
      obtain ⟨j, hj, rfl⟩ := hset t rfl
      obtain ⟨hlt, hj⟩ := List.getElem?_eq_some_iff.mp hj
      refine ih (by rw [length_set, hlen]) (fun x hx => ?_) ?_ (by omega)
      case refine_1 =>
        rcases mem_or_eq_of_mem_set hx with hx | rfl
        · exact hslots x hx
        · omega
      case refine_2 => rw [countP_set hlt, hj, hused]; rfl

theorem findDuplicate_ok (names : List Bytes) : ∃ r, findDuplicate names = .ok r := by
  rw [findDuplicate]
  split
  case isTrue => exact ⟨_, rfl⟩
  case isFalse hn =>
    have hsize : tableSize names.length = 2 ^ max (Nat.clog 2 (2 * names.length)) 6 := by
      rw [tableSize]
      rcases Nat.le_total (Nat.clog 2 (2 * names.length)) 6 with h | h
      · rw [max_eq_right h]
        exact max_eq_right (Nat.pow_le_pow_right (by decide) h)
      · rw [max_eq_left h]
        exact max_eq_left (Nat.pow_le_pow_right (by decide : 0 < 2) h)
    have hle := Nat.le_pow_clog (by decide : 1 < 2) (2 * names.length)
    have hlt : names.length < tableSize names.length := by
      rw [tableSize]
      simp only [linearScanMax] at hn
      omega
    dsimp only
    rw [hsize] at hlt ⊢
    exact fill_ok length_replicate (fun x hx => (eq_of_mem_replicate hx).le.trans (Nat.zero_le _))
      (by rw [countP_replicate]; rfl) (Nat.zero_add _) hlt

end

theorem ends_validate (dir : Bytes) (payLen : Nat) :
    Ends (validate dir payLen i cursor pos n) := by
  induction n generalizing i cursor pos
  case zero => trivial
  case succ n ih =>
    obtain ⟨o, ho⟩ := ends_dirEntry dir pos
    rw [validate, ho]
    cases o
    case none => trivial
    case some => exact .guard fun _ => .guard fun _ => .guard fun _ => ih

theorem ends_layout (value : Bytes) : Ends (layout value) := by
  refine .guard fun hlen => ?_
  simp only [not_not, minFrame, fixedHeader] at hlen
  refine .bind (ends_slice (by omega) (by omega)) fun _ _ => .guard fun _ => ?_
  refine .bind (ends_slice (by omega) (by omega)) fun _ _ => .bind (ends_slice (by omega) (by omega)) fun _ _ => ?_
  refine .guard fun _ => .guard fun _ => .bind (ends_slice (by omega) (by omega)) fun _ _ => ?_
  refine .bind (ends_slice (by omega) (by omega)) fun _ _ => .guard fun hh => .guard fun _ => .guard fun _ => ?_
  simp only [not_or, not_lt] at hh
  refine .bind (ends_slice hh.1 (by omega)) fun _ _ => .bind (ends_slice hh.2 (by omega)) fun _ _ => ?_
  exact .bind (ends_validate _ _) fun _ _ => .guard fun _ => .guard fun _ => trivial

section

variable {checksum : Bytes → UInt32} {value dir tail b : Bytes} {cols dst : List EntityColumn}

theorem Framed.body (h : Framed value dir (payload cols) tail cols.length) :
    sliceFrom value (value.length - 4) = .ok tail ∧ slice value 0 (value.length - 4) =
      .ok (header (fixedHeader + dir.length) cols.length ++ (dir ++ payload cols)) := by
  have hat : At value 0 (header (fixedHeader + dir.length) cols.length ++ (dir ++ payload cols) ++ tail) :=
    ⟨Nat.zero_le _, by rw [h.eq]; simp⟩
  have hlen : value.length - 4 =
      0 + (header (fixedHeader + dir.length) cols.length ++ (dir ++ payload cols)).length := by
    have := hat.length
    rw [length_append, h.tail] at this
    omega
  rw [hlen]
  exact ⟨hat.append.sliceFrom, hat.slice⟩

def Checks (checksum : Bytes → UInt32) (cols : List EntityColumn) (dir tail : Bytes) : Prop :=
  findDuplicate (cols.map EntityColumn.name) = .ok none ∧
    readLe tail = (checksum (header (fixedHeader + dir.length) cols.length ++ (dir ++ payload cols))).toNat

theorem Framed.decode (h : Framed value dir (payload cols) tail cols.length)
    (hc : ∀ dst, collect dir (payload cols) dst 0 cols.length = .ok (dst ++ cols)) (dst : List EntityColumn) :
    (Checks checksum cols dir tail → decodeEntityInto checksum dst value = (.ok (), dst ++ cols)) ∧
    (¬Checks checksum cols dir tail → (decodeEntityInto checksum dst value).2 = dst ∧
      ∃ e, (decodeEntityInto checksum dst value).1 = .error (.error e)) := by
  have hl : layout value = .ok ⟨dir, payload cols, cols.length⟩ := layout_eq_ok.mpr ⟨tail, h⟩
  obtain ⟨hs, hb⟩ := h.body
  obtain ⟨r, hr⟩ := findDuplicate_ok (cols.map EntityColumn.name)
  simp only [decodeEntityInto, hl, hc, drop_left, take_left, hr, Checks, Except.ok.injEq]
  cases r
  case some => exact ⟨fun h => absurd h.1 (by simp), fun _ => ⟨rfl, _, rfl⟩⟩
  case none =>
    dsimp only
    rw [hs, hb]
    dsimp only
    split
    case isTrue hne => exact ⟨fun h => absurd h.2 hne, fun _ => ⟨rfl, _, rfl⟩⟩
    case isFalse heq => exact ⟨fun _ => rfl, fun h => absurd ⟨rfl, not_not.mp heq⟩ h⟩

theorem lift_eq_ok : lift x = .ok a ↔ x = .ok a := by
  cases x <;> simp [lift]

theorem encodeEntity_eq_ok : encodeEntity checksum cols = .ok b ↔ cols.length ≤ maxEntityColumns ∧ Named cols ∧
    minFrame + size cols ≤ maxEntityBytes ∧ findDuplicate (cols.map EntityColumn.name) = .ok none ∧
    b = sealed checksum (header (fixedHeader + (directory 0 cols).length) cols.length ++
      (directory 0 cols ++ payload cols)) := by
  simp only [encodeEntity, guard_eq_ok, then_eq_ok, not_lt, lift_eq_ok,
    checkColumns_eq_ok (show minFrame ≤ maxEntityBytes by decide)]
  constructor
  case mp =>
    rintro ⟨hn, _, ⟨hname, rfl, hle⟩, r, hr, h⟩
    cases r
    case some => cases h
    case none => exact ⟨hn, hname, hle, hr, by rw [← Except.ok.inj h, append_assoc]⟩
  case mpr =>
    rintro ⟨hn, hname, hle, hr, rfl⟩
    exact ⟨hn, _, ⟨hname, rfl, hle⟩, none, hr, by rw [append_assoc]⟩

theorem Framed.fields {pay : Bytes} {n : Nat} (h : Framed value dir pay tail n) :
    readLe ((value.take 10).drop 6) = fixedHeader + dir.length ∧ readLe ((value.take 14).drop 10) = n ∧
      (value.take (fixedHeader + dir.length)).drop fixedHeader = dir := by
  have hH : fixedHeader + dir.length ≤ maxEntityBytes := by
    have := h.length_eq ▸ h.length
    omega
  have hpre := length_header (fixedHeader + dir.length) n
  rw [h.eq]
  refine ⟨Eq.trans (congrArg readLe ?_) (readLe_word hH), Eq.trans (congrArg readLe ?_) (readLe_word (h.count.trans (by decide))), ?_⟩
  case refine_1 => rfl
  case refine_2 => rfl
  case refine_3 =>
    rw [← append_assoc, take_left' (by rw [length_append, hpre]), drop_left' hpre]

/-- Every length of the directory is spelled in the fewest bytes. -/
def Minimal (value : Bytes) : Prop :=
  shortest ((value.take (readLe ((value.take 10).drop 6))).drop fixedHeader) 0 (readLe ((value.take 14).drop 10)) = true

theorem decode_spec (checksum : Bytes → UInt32) (dst : List EntityColumn) (value : Bytes) :
    ((decodeEntityInto checksum dst value).2 = dst ∧ ∃ e, (decodeEntityInto checksum dst value).1 = .error (.error e)) ∨
    ∃ cols, decodeEntityInto checksum dst value = (.ok (), dst ++ cols) ∧
      (encodeEntity checksum cols = .ok value ↔ Minimal value) := by
  cases hl : layout value
  case error e =>
    have he := ends_layout value
    rw [hl] at he
    cases e
    case error e => exact .inl ⟨by simp only [decodeEntityInto, hl], e, by simp only [decodeEntityInto, hl]⟩
    all_goals exact he.elim
  case ok l =>
    obtain ⟨tail, hf⟩ := layout_eq_ok.mp hl
    obtain ⟨dir, pay, n⟩ := l
    dsimp only at hf
    obtain ⟨cols, d, rfl, hp⟩ := of_validate hf.passes (Nat.zero_le _) (Nat.zero_le _)
    obtain ⟨rest, hd, hd'⟩ := hp.inDir
    obtain ⟨rest', hy, hy'⟩ := hp.inPay
    obtain rfl : rest = [] := by rw [← hd'.drop, drop_length]
    obtain rfl : rest' = [] := by rw [← hy'.drop, drop_length]
    obtain rfl : dir = d := by simpa using hd.drop
    obtain rfl : pay = payload cols := by simpa using hy.drop
    by_cases hc : Checks checksum cols dir tail
    case neg => exact .inl ((hf.decode hp.collected dst).2 hc)
    refine .inr ⟨cols, (hf.decode hp.collected dst).1 hc, ?_⟩
    rw [Minimal, hf.fields.1, hf.fields.2.1, hf.fields.2.2, hp.short, encodeEntity_eq_ok]
    have hsum := hf.length_eq
    have hlen := hf.length
    have hsize := length_directory 0 cols
    constructor
    case mp =>
      rintro ⟨-, -, -, -, hv⟩
      have := congrArg length hv
      simp only [sealed, length_append, length_header, putU32, length_putLe] at this
      omega
    case mpr =>
      intro hshort
      obtain rfl := hp.laid.longForm.eq hshort
      refine ⟨hf.count, hp.named, by rw [minFrame]; omega, hc.1, ?_⟩
      have htail : putU32 (readLe tail) = tail := putLe_readLe hf.tail
      rw [sealed, ← hc.2, htail, hf.eq]
      simp only [append_assoc]

theorem decode_encoded (h : encodeEntity checksum cols = .ok b) (dst : List EntityColumn) :
    decodeEntityInto checksum dst b = (.ok (), dst ++ cols) := by
  obtain ⟨hn, hname, hle, hr, rfl⟩ := encodeEntity_eq_ok.mp h
  have hsize := length_directory 0 cols
  have hpay : (payload cols).length ≤ maxEntityBytes := by omega
  have hlaid : Laid 0 cols (directory 0 cols) := laid_directory (by rw [Nat.zero_add]; exact hpay.trans (by decide))
  have hdir : At (directory 0 cols) 0 (directory 0 cols ++ []) := ⟨Nat.zero_le _, by simp⟩
  have hcur : At (payload cols) 0 (payload cols ++ []) := ⟨Nat.zero_le _, by simp⟩
  obtain ⟨hval, hcol⟩ := passes_of_laid (i := 0) hlaid hdir hcur hname (lt_of_le_of_lt hpay (by decide))
  rw [Nat.zero_add, Nat.zero_add] at hval
  let body := header (fixedHeader + (directory 0 cols).length) cols.length ++ (directory 0 cols ++ payload cols)
  have hf : Framed (sealed checksum body) (directory 0 cols) (payload cols) (putU32 (checksum body).toNat) cols.length :=
    { eq := by simp only [sealed, body, append_assoc]
      tail := length_putLe _ _
      length := by
        simp only [sealed, body, length_append, length_header, putU32, length_putLe]
        rw [minFrame] at hle
        omega
      count := hn
      fits := mul_le_length_directory 0 cols
      passes := hval }
  exact (hf.decode hcol dst).1 ⟨hr, by rw [putU32, readLe_putLe]; exact Nat.mod_eq_of_lt (UInt32.toNat_lt _)⟩

end

theorem frames_canonical (checksum : Bytes → UInt32) :
    (∀ cols b, encodeEntity checksum cols = .ok b → decodeEntity checksum b = .ok cols) ∧
    (∀ value cols, decodeEntity checksum value = .ok cols →
      (encodeEntity checksum cols = .ok value ↔ Minimal value)) ∧
    ∀ dst value e, (decodeEntityInto checksum dst value).1 = .error e →
      (decodeEntityInto checksum dst value).2 = dst ∧ ∃ err, e = .error err := by
  refine ⟨fun cols b h => ?_, fun value cols h => ?_, fun dst value e h => ?_⟩
  case refine_1 => rw [decodeEntity, decode_encoded h, nil_append]
  case refine_2 =>
    obtain ⟨-, e, he⟩ | ⟨cols', hd, hm⟩ := decode_spec checksum [] value
    case inl =>
      have hd : decodeEntity checksum value = .error (.error e) := by
        rw [decodeEntity, ← Prod.mk.eta (p := decodeEntityInto checksum [] value), he]
      rw [hd] at h
      cases h
    case inr =>
      rw [decodeEntity, hd] at h
      rwa [← Except.ok.inj h]
  case refine_3 =>
    obtain ⟨hd, err, he⟩ | ⟨cols, hd, -⟩ := decode_spec checksum dst value
    case inl => exact ⟨hd, err, Except.error.inj (h.symm.trans he)⟩
    case inr => rw [hd] at h; cases h

theorem frames_canonical_sample :
    encodeEntity (fun _ => 7) [⟨[97], [1, 2]⟩] =
      .ok ([87, 86, 69, 49, 1, 0, 24, 0, 0, 0, 1, 0, 0, 0, 0, 0, 0, 0, 1, 1, 0, 0, 0, 2, 97, 1, 2, 7, 0, 0, 0] : Bytes) ∧
    decodeEntity (fun _ => 7)
      [87, 86, 69, 49, 1, 0, 24, 0, 0, 0, 1, 0, 0, 0, 0, 0, 0, 0, 1, 1, 0, 0, 0, 2, 97, 1, 2, 7, 0, 0, 0] =
        .ok [⟨[97], [1, 2]⟩] := by
  have h : encodeEntity (fun _ => 7) [⟨[97], [1, 2]⟩] =
      .ok ([87, 86, 69, 49, 1, 0, 24, 0, 0, 0, 1, 0, 0, 0, 0, 0, 0, 0, 1, 1, 0, 0, 0, 2, 97, 1, 2, 7, 0, 0, 0] : Bytes) := by
    decide +kernel
  exact ⟨h, (frames_canonical _).1 _ _ h⟩

/-- A name length of 1 in two bytes: the frame is accepted, and written back without the second one. -/
theorem padded_length_accepted :
    decodeEntity (fun _ => 7)
      [87, 86, 69, 49, 1, 0, 25, 0, 0, 0, 1, 0, 0, 0, 0, 0, 0, 0, 129, 0, 1, 0, 0, 0, 2, 97, 1, 2, 7, 0, 0, 0] =
        .ok [⟨[97], [1, 2]⟩] ∧
    encodeEntity (fun _ => 7) [⟨[97], [1, 2]⟩] =
      .ok ([87, 86, 69, 49, 1, 0, 24, 0, 0, 0, 1, 0, 0, 0, 0, 0, 0, 0, 1, 1, 0, 0, 0, 2, 97, 1, 2, 7, 0, 0, 0] : Bytes) := by
  decide +kernel

end OndaDb.Entity

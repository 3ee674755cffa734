import Mathlib.Tactic
import OndaDb.Encoding

-- Durations that callers give, against times in signed 64-bit nanoseconds.
namespace OndaDb

def maxTime : Int := 0x7FFFFFFFFFFFFFFF

def minTime : Int := -0x8000000000000000

-- What the clock gives, 0 before the epoch.
abbrev Time := { t : Int // 0 ≤ t ∧ t ≤ maxTime }

structure Duration where
  secs : UInt64
  nanos : Fin 1000000000
  deriving DecidableEq, Repr

namespace Duration

def asNanos (d : Duration) : Nat :=
  d.secs.toNat * 1000000000 + d.nanos

def isZero (d : Duration) : Bool :=
  d.asNanos = 0

def max : Duration :=
  ⟨0xFFFFFFFFFFFFFFFF, 999999999⟩

end Duration

-- The low 64 bits, as a signed number.
def asI64 (n : Nat) : Int :=
  (n : Int).bmod 0x10000000000000000

def saturate (t : Int) : Int :=
  Max.max minTime (min maxTime t)

def ttlToAbs (now : Time) (ttl : Duration) : Int :=
  if ttl.isZero then 0 else saturate (now + asI64 ttl.asNanos)

-- `Ingestion::add` has the conversion inline.
def Ingestion.ttlAbs (now : Time) (ttl : Duration) : Int :=
  if ttl.isZero then 0 else saturate (now + asI64 ttl.asNanos)

def expired (ttl : Int) (now : Time) : Bool :=
  ttl ≠ 0 ∧ ttl ≤ now

structure TierRule where
  keyPrefix : Bytes
  tier : String
  minAge : Duration
  deriving DecidableEq, Repr

structure BottomPart where
  minKey : Bytes
  tier : Option String
  maxEntryTime : Option Int
  deriving DecidableEq, Repr

-- The longest prefix that matches. Of rules of one length the last is taken.
def tierForKey (rules : List TierRule) (userKey : Bytes) : Option TierRule :=
  rules.filter (·.keyPrefix.isPrefixOf userKey) |>.foldl longer none
where
  longer : Option TierRule → TierRule → Option TierRule
    | some b, r => if b.keyPrefix.length ≤ r.keyPrefix.length then some r else some b
    | none, r => some r

def eligiblePartTarget (rules : List TierRule) (part : BottomPart) (now : Time) : Option String := do
  let rule ← tierForKey rules part.minKey
  -- A rule for the default tier moves nothing.
  if rule.tier = "ssd" ∨ part.tier = some rule.tier then none else
    let newest ← part.maxEntryTime
    if saturate (now - newest) > asI64 rule.minAge.asNanos then some rule.tier else none

def Outlives (ttlAbs : Time → Duration → Int) (d : Duration) : Prop :=
  ∀ now t : Time, expired (ttlAbs now d) t → min (now.1 + d.asNanos) maxTime ≤ t.1

def StaysPut (d : Duration) : Prop :=
  ∀ rules part now rule target, tierForKey rules part.minKey = some rule → rule.minAge = d →
    eligiblePartTarget rules part now = some target →
      ∃ newest ∈ part.maxEntryTime, (d.asNanos : Int) < now.1 - newest

-- The nanoseconds fit, or what is left of them is the largest time.
def Duration.Fits (d : Duration) : Prop :=
  d.asNanos < 2 ^ 63 ∨ d.asNanos % 2 ^ 64 = 2 ^ 63 - 1

instance (d : Duration) : Decidable d.Fits :=
  inferInstanceAs (Decidable (_ ∨ _))

theorem asI64_of_lt (h : n < 2 ^ 63) : asI64 n = n := by
  unfold asI64
  rw [Int.bmod_def]
  push_cast
  split_ifs <;> omega

theorem asI64_eq_maxTime : asI64 n = maxTime ↔ n % 2 ^ 64 = 2 ^ 63 - 1 := by
  unfold asI64 maxTime
  rw [Int.bmod_def]
  push_cast
  split_ifs <;> omega

theorem asI64_bounds (n : Nat) : minTime ≤ asI64 n ∧ asI64 n ≤ maxTime := by
  unfold asI64 maxTime minTime
  rw [Int.bmod_def]
  push_cast
  split_ifs <;> omega

variable {d : Duration}

-- Otherwise it does not reach the largest time, although the duration goes beyond.
theorem Duration.not_fits (h : ¬d.Fits) : 2 ^ 63 ≤ d.asNanos ∧ asI64 d.asNanos < maxTime := by
  obtain ⟨hn, hw⟩ := not_or.mp h
  exact ⟨not_lt.mp hn, lt_of_le_of_ne (asI64_bounds _).2 (mt asI64_eq_maxTime.mp hw)⟩

theorem outlives_iff {ttlAbs : Time → Duration → Int}
    (h : ∀ now d, ttlAbs now d = if d.isZero then 0 else saturate (now + asI64 d.asNanos)) :
    Outlives ttlAbs d ↔ d.Fits := by
  constructor
  case mp =>
    intro ho
    by_contra hf
    obtain ⟨hn, hw⟩ := Duration.not_fits hf
    have hb := (asI64_bounds d.asNanos).1
    have hz : ¬d.isZero := by simp [Duration.isZero]; omega
    -- Written at the first time at which what is stored is not taken for no TTL.
    obtain ⟨now, hnow⟩ : ∃ now : Time, saturate (now + asI64 d.asNanos) ≠ 0 ∧
        saturate (now + asI64 d.asNanos) < maxTime := by
      by_cases h0 : asI64 d.asNanos = 0
      case pos => exact ⟨⟨1, by decide⟩, by rw [h0]; decide⟩
      refine ⟨⟨0, by decide⟩, ?_⟩
      simp only [saturate, maxTime, minTime, zero_add] at *
      omega
    have hle := ho now ⟨maxTime - 1, by decide⟩ (by
      rw [expired, h, if_neg hz]
      simpa [Int.le_sub_one_iff] using hnow)
    have := now.2.1
    simp only [maxTime] at hle
    omega
  case mpr =>
    intro hf now t he
    obtain ⟨hne, hle⟩ : ttlAbs now d ≠ 0 ∧ ttlAbs now d ≤ t := by simpa [expired] using he
    have hz : ¬d.isZero := fun hz => hne (by rw [h, if_pos hz])
    rw [h, if_neg hz, saturate] at hle
    refine le_trans ?_ hle
    have := now.2.1
    obtain hf | hf := hf
    case inl => rw [asI64_of_lt hf]; omega
    case inr => rw [asI64_eq_maxTime.mpr hf]; omega

theorem Duration.Fits.staysPut (h : d.Fits) : StaysPut d := by
  rintro rules part now rule target hr rfl he
  simp only [eligiblePartTarget, hr, Option.bind_eq_bind, Option.bind_some, Option.bind_eq_some_iff,
    Option.ite_none_left_eq_some, Option.ite_none_right_eq_some] at he
  obtain ⟨-, newest, hnew, hage, -⟩ := he
  refine ⟨newest, hnew, ?_⟩
  rw [saturate] at hage
  obtain hf | hf := h
  case inl =>
    rw [asI64_of_lt hf] at hage
    simp only [maxTime, minTime] at hage
    omega
  case inr =>
    rw [asI64_eq_maxTime.mpr hf] at hage
    simp only [maxTime, minTime] at hage
    omega

theorem fits_of_staysPut (h : StaysPut d) : d.Fits := by
  by_contra hf
  obtain ⟨hn, hw⟩ := Duration.not_fits hf
  obtain ⟨now, hnow⟩ : ∃ now : Time, now.1 = maxTime := ⟨⟨maxTime, by decide⟩, rfl⟩
  let part : BottomPart := ⟨[], none, some 0⟩
  have hrule : tierForKey [⟨[], "cold", d⟩] part.minKey = some ⟨[], "cold", d⟩ := rfl
  have hother : ¬("cold" = "ssd" ∨ part.tier = some "cold") := by decide
  have hage : saturate (now - 0) > asI64 d.asNanos := by
    rw [hnow, sub_zero]
    exact lt_of_lt_of_eq hw (by decide)
  have hmove : eligiblePartTarget [⟨[], "cold", d⟩] part now = some "cold" := by
    simp only [eligiblePartTarget, hrule, Option.bind_eq_bind, Option.bind_some, if_neg hother, part, if_pos hage]
  obtain ⟨newest, hnew, hlt⟩ := h _ part _ _ _ hrule rfl hmove
  obtain rfl : 0 = newest := Option.some.inj hnew
  rw [hnow, maxTime] at hlt
  omega

/-- A duration is kept by transactions, by ingestions and by the part mover exactly when its nanoseconds fit. -/
theorem duration_kept_iff (d : Duration) :
    (Outlives ttlToAbs d ↔ d.Fits) ∧ (Outlives Ingestion.ttlAbs d ↔ d.Fits) ∧ (StaysPut d ↔ d.Fits) :=
  ⟨outlives_iff fun _ _ => rfl, outlives_iff fun _ _ => rfl, fits_of_staysPut, Duration.Fits.staysPut⟩

/-- The longest duration is taken for one nanosecond ago: a record is gone as soon as it is written, and a part is moved
as soon as it is there. -/
theorem duration_max_shortened :
    let now : Time := ⟨1700000000000000000, by decide⟩
    expired (ttlToAbs now Duration.max) now ∧ expired (Ingestion.ttlAbs now Duration.max) now ∧
      eligiblePartTarget [⟨[], "cold", Duration.max⟩] ⟨[107], none, some now⟩ now = some "cold" := by
  decide

end OndaDb

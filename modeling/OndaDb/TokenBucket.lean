import Mathlib.Tactic
import OndaDb.Lib.Run

-- The limiter of background IO. Times are in nanoseconds.
namespace OndaDb

open List

inductive IoClass
  | foreground
  | flush
  | compaction
  | obsoleteDelete
  deriving DecidableEq, Repr

structure TokenBucket where
  rate : UInt64
  capacity : UInt64
  deriving DecidableEq, Repr

namespace TokenBucket

-- `left` is what each waiter still has to pay.
structure State where
  tokens : Nat
  last : Nat
  left : Nat → Nat

def withClock (bytesPerSecond burstBytes : UInt64) (now : Nat) : TokenBucket × State :=
  let capacity := if burstBytes = 0 then bytesPerSecond else burstBytes
  (⟨bytesPerSecond, capacity⟩, ⟨capacity.toNat, now, fun _ => 0⟩)

variable (b : TokenBucket)

-- Products saturate at 128 bits and sums at 64.
def refill (s : State) (now : Nat) : State :=
  let elapsed := now - s.last
  if elapsed = 0 then s else
    let earned := min (min (b.rate.toNat * elapsed) (2 ^ 128 - 1) / 1000000000) (2 ^ 64 - 1)
    { s with last := now, tokens := min (min (s.tokens + earned) (2 ^ 64 - 1)) b.capacity.toNat }

-- One turn of the loop in `charge`: the waiter takes what is there.
def pay (s : State) (w now : Nat) : Nat × State :=
  let s := b.refill s now
  let take := min (s.left w) s.tokens
  (take, { s with tokens := s.tokens - take, left := Function.update s.left w (s.left w - take) })

inductive Event
  | charge (cls : IoClass) (w bytes now : Nat)
  | poll (w now : Nat)
  deriving DecidableEq, Repr

def Event.now : Event → Nat
  | charge _ _ _ now => now
  | poll _ now => now

def step (s : State) : Event → Nat × State
  | .charge cls w bytes now =>
    if cls = .foreground ∨ b.rate = 0 ∨ bytes = 0 then (0, s)
    else b.pay { s with left := Function.update s.left w bytes } w now
  | .poll w now => b.pay s w now

def granted (s : State) (e : Event) : Nat :=
  (b.step s e).1

def exec (s : State) (e : Event) : State :=
  (b.step s e).2

-- How long a deficit takes to accrue. A waiter comes back after that time or earlier: the clock parks it for at most
-- 50 ms.
def refillTime (deficit : Nat) : Nat :=
  min ((deficit * 1000000000 + b.rate.toNat - 1) / b.rate.toNat) (2 ^ 64 - 1)

def Legal (s : State) : Event → Prop
  | .charge _ w _ now => s.last ≤ now ∧ s.left w = 0
  | .poll w now => s.last ≤ now ∧ s.left w ≠ 0

def total (s : State) : List Event → Nat
  | [] => 0
  | e :: es => b.granted s e + total (b.exec s e) es

def Starved (s : State) : Prop :=
  s.tokens = 0 ∧ ∃ w, s.left w ≠ 0

-- The time since the last reading is worth a whole number of bytes, and they fit.
def Exact (s : State) (e : Event) : Prop :=
  1000000000 ∣ b.rate.toNat * (e.now - s.last) ∧ b.rate.toNat * (e.now - s.last) ≤ 1000000000 * b.capacity.toNat

variable {b} {s : State} {e : Event}

theorem Legal.last_le (h : Legal s e) : s.last ≤ e.now := by
  cases e <;> exact h.1

structure Refilled (b : TokenBucket) (s : State) (now : Nat) (s' : State) : Prop where
  last : s'.last = now
  le : s'.tokens ≤ b.capacity.toNat
  earned : 1000000000 * s'.tokens ≤ 1000000000 * s.tokens + b.rate.toNat * (now - s.last)
  exact : s.tokens = 0 → 1000000000 ∣ b.rate.toNat * (now - s.last) →
    b.rate.toNat * (now - s.last) ≤ 1000000000 * b.capacity.toNat →
      1000000000 * s'.tokens = b.rate.toNat * (now - s.last)

theorem refilled (h : s.last ≤ now) (hs : s.tokens ≤ b.capacity.toNat) : Refilled b s now (b.refill s now) := by
  have hc := b.capacity.toNat_lt
  rw [refill]
  dsimp only
  split
  case isTrue he =>
    exact ⟨by omega, hs, Nat.le_add_right .., fun h0 _ _ => by rw [he, h0, mul_zero, mul_zero]⟩
  case isFalse he =>
    refine ⟨rfl, min_le_right .., ?_, fun h0 hd hle => ?_⟩
    case refine_1 =>
      dsimp only
      generalize b.rate.toNat * (now - s.last) = x
      omega
    case refine_2 =>
      dsimp only
      generalize b.rate.toNat * (now - s.last) = x at hd hle ⊢
      omega

theorem step_cases (h : Legal s e) (hs : s.tokens ≤ b.capacity.toNat) :
    (b.granted s e = 0 ∧ b.exec s e = s) ∨
      ∃ s', Refilled b s e.now s' ∧ (b.exec s e).last = s'.last ∧ b.granted s e + (b.exec s e).tokens = s'.tokens := by
  cases e
  case poll w now => exact .inr ⟨_, refilled h.1 hs, rfl, Nat.add_sub_of_le (min_le_right ..)⟩
  case charge cls w bytes now =>
    rw [granted, exec, step]
    split
    case isTrue => exact .inl ⟨rfl, rfl⟩
    have hr : Refilled b { s with left := Function.update s.left w bytes } now
      (b.refill { s with left := Function.update s.left w bytes } now) := refilled h.1 hs
    exact .inr ⟨_, { hr with }, rfl, Nat.add_sub_of_le (min_le_right ..)⟩

theorem mul_elapsed (h : t ≤ now) (r : Nat) : r * (now - t) + r * t = r * now := by
  rw [← Nat.mul_add, Nat.sub_add_cancel h]

theorem granted_le (h : Legal s e) (hs : s.tokens ≤ b.capacity.toNat) :
    (b.exec s e).last ≤ e.now ∧ b.granted s e + (b.exec s e).tokens ≤ b.capacity.toNat ∧
      1000000000 * (b.granted s e + (b.exec s e).tokens) + b.rate.toNat * s.last ≤
        1000000000 * s.tokens + b.rate.toNat * (b.exec s e).last := by
  have hl := h.last_le
  obtain ⟨hg, he⟩ | ⟨s', hr, hlast, hsum⟩ := step_cases h hs
  case inl => rw [hg, he, Nat.zero_add]; exact ⟨hl, hs, le_rfl⟩
  case inr =>
    rw [hlast, hsum, hr.last, ← mul_elapsed hl]
    exact ⟨le_rfl, hr.le, by have := hr.earned; omega⟩

theorem granted_eq (h : Legal s e) (hs : s.tokens ≤ b.capacity.toNat) (h0 : s.tokens = 0) (hx : b.Exact s e) :
    1000000000 * (b.granted s e + (b.exec s e).tokens) + b.rate.toNat * s.last = b.rate.toNat * (b.exec s e).last := by
  obtain ⟨hg, he⟩ | ⟨s', hr, hlast, hsum⟩ := step_cases h hs
  case inl => rw [hg, he, h0, Nat.zero_add]
  case inr => rw [hlast, hsum, hr.last, hr.exact h0 hx.1 hx.2, mul_elapsed h.last_le]

theorem total_le (hs : s.tokens ≤ b.capacity.toNat) (h : Allowed b.exec Legal s es) :
    (es.foldl b.exec s).tokens ≤ b.capacity.toNat ∧ 1000000000 * b.total s es + b.rate.toNat * s.last ≤
      1000000000 * s.tokens + b.rate.toNat * (es.foldl b.exec s).last := by
  induction es generalizing s
  case nil => exact ⟨hs, Nat.add_le_add_right (Nat.zero_le _) _⟩
  case cons e es ih =>
    obtain ⟨-, hcap, hstep⟩ := granted_le h.1 hs
    obtain ⟨hend, hrun⟩ := ih (Nat.le_of_add_left_le hcap) h.2
    rw [total, foldl_cons]
    exact ⟨hend, by omega⟩

theorem total_eq (hs : s.tokens ≤ b.capacity.toNat) (h : Allowed b.exec Legal s es)
    (hx : Allowed b.exec (fun s e => Starved s ∧ b.Exact s e) s es) (h0 : s.tokens = 0) :
    1000000000 * (b.total s es + (es.foldl b.exec s).tokens) + b.rate.toNat * s.last =
      b.rate.toNat * (es.foldl b.exec s).last := by
  induction es generalizing s
  case nil => rw [total, foldl_nil, h0, Nat.zero_add]
  case cons e es ih =>
    obtain ⟨-, hcap, -⟩ := granted_le h.1 hs
    have hstep := granted_eq h.1 hs hx.1.1.1 hx.1.2
    rw [total, foldl_cons]
    cases es
    case nil => rw [total, foldl_nil, Nat.add_zero]; exact hstep
    case cons e' es =>
      -- The bucket is empty again where the rest of the window starts.
      have hempty : (b.exec s e).tokens = 0 := hx.2.1.1.1
      have hrun := ih (Nat.le_of_add_left_le hcap) h.2 hx.2 hempty
      omega

theorem last_le_foldl (hs : s.tokens ≤ b.capacity.toNat) (h : Allowed b.exec Legal s es) (hz : ∀ e ∈ es, e.now ≤ z)
    (hl : s.last ≤ z) : (es.foldl b.exec s).last ≤ z := by
  induction es generalizing s
  case nil => exact hl
  case cons e es ih =>
    obtain ⟨he, hz⟩ := forall_mem_cons.mp hz
    obtain ⟨hnow, hcap, -⟩ := granted_le h.1 hs
    exact ih (Nat.le_of_add_left_le hcap) h.2 hz (hnow.trans he)

-- Nothing is paid before the first reading in the window, and then at most a full bucket.
theorem window_le (hs : s.tokens ≤ b.capacity.toNat) (h : Allowed b.exec Legal s es)
    (hw : ∀ e ∈ es, a ≤ e.now ∧ e.now ≤ z) :
    1000000000 * b.total s es ≤ 1000000000 * b.capacity.toNat + b.rate.toNat * (z - a) := by
  induction es generalizing s
  case nil => exact Nat.zero_le _
  case cons e es ih =>
    obtain ⟨he, hw⟩ := forall_mem_cons.mp hw
    rw [total]
    obtain ⟨hg, hsame⟩ | ⟨s', hr, hlast, hsum⟩ := step_cases h.1 hs
    case inl =>
      rw [hg, hsame, Nat.zero_add]
      exact ih hs (hsame ▸ h.2) hw
    case inr =>
      have hcap := hsum.trans_le hr.le
      have hnow : (b.exec s e).last = e.now := hlast.trans hr.last
      have hend := last_le_foldl (Nat.le_of_add_left_le hcap) h.2 (fun e he => (hw e he).2) (hnow.trans_le he.2)
      have hrun := (total_le (Nat.le_of_add_left_le hcap) h.2).2
      have hfrom : b.rate.toNat * a ≤ b.rate.toNat * (b.exec s e).last := Nat.mul_le_mul_left _ (hnow ▸ he.1)
      have hto := Nat.mul_le_mul_left b.rate.toNat hend
      have := mul_elapsed (he.1.trans he.2) b.rate.toNat
      omega

/-- In no window is more paid than a full bucket and the rate over the window. While waiters are unpaid and the bucket is
empty, a window in which every reading is worth whole bytes is paid in full. -/
theorem bucket_rate (bytesPerSecond burstBytes : UInt64) (start : Nat) (before es : List Event)
    (h : Allowed (withClock bytesPerSecond burstBytes start).1.exec Legal
      (withClock bytesPerSecond burstBytes start).2 (before ++ es)) :
    let b := (withClock bytesPerSecond burstBytes start).1
    let s := before.foldl b.exec (withClock bytesPerSecond burstBytes start).2
    let s' := es.foldl b.exec s
    (∀ a z, (∀ e ∈ es, a ≤ e.now ∧ e.now ≤ z) →
      1000000000 * b.total s es ≤ 1000000000 * b.capacity.toNat + b.rate.toNat * (z - a)) ∧
    (Allowed b.exec (fun s e => Starved s ∧ b.Exact s e) s es → Starved s' →
      b.rate.toNat * (s'.last - s.last) < 1000000000 * (b.total s es + 1)) := by
  intro b s s'
  obtain ⟨hbefore, hwindow⟩ := h.of_append
  have hs : s.tokens ≤ b.capacity.toNat := (total_le le_rfl hbefore).1
  refine ⟨fun a z => window_le hs hwindow, fun hx hend => ?_⟩
  cases es
  case nil => simp [s', total]
  case cons e es =>
    have hsum : 1000000000 * (b.total s (e :: es) + s'.tokens) + b.rate.toNat * s.last = b.rate.toNat * s'.last :=
      total_eq hs hwindow hx hx.1.1.1
    have hempty : s'.tokens = 0 := hend.1
    rw [hempty, Nat.add_zero] at hsum
    rw [Nat.mul_sub]
    omega

-- A waiter that owes something finds nothing, and half a second is worth half a byte.
theorem poll_starved (h0 : s.tokens = 0) (hl : s.left 0 ≠ 0) :
    let s' := exec ⟨1, 1⟩ s (.poll 0 (s.last + 500000000))
    granted ⟨1, 1⟩ s (.poll 0 (s.last + 500000000)) = 0 ∧ s'.tokens = 0 ∧ s'.left 0 ≠ 0 ∧ s'.last = s.last + 500000000 := by
  have hr : refill ⟨1, 1⟩ s (s.last + 500000000) = { s with last := s.last + 500000000 } := by
    have hearned : min (min ((1 : UInt64).toNat * 500000000) (2 ^ 128 - 1) / 1000000000) (2 ^ 64 - 1) = 0 := by decide
    rw [refill, Nat.add_sub_cancel_left, if_neg (by decide), h0]
    simp only [hearned, Nat.add_zero, Nat.zero_min]
  simp [granted, exec, step, pay, hr, h0, hl]

def polls : Nat → Nat → List Event
  | _, 0 => []
  | t, n + 1 => .poll 0 (t + 500000000) :: polls (t + 500000000) n

theorem polls_starved (h0 : s.tokens = 0) (hl : s.left 0 ≠ 0) (n : Nat) :
    let b : TokenBucket := ⟨1, 1⟩
    let s' := (polls s.last n).foldl b.exec s
    Allowed b.exec Legal s (polls s.last n) ∧ Allowed b.exec (fun s _ => Starved s) s (polls s.last n) ∧
      Starved s' ∧ b.total s (polls s.last n) = 0 ∧ s'.last = s.last + 500000000 * n := by
  induction n generalizing s
  case zero => exact ⟨trivial, trivial, ⟨h0, 0, hl⟩, rfl, rfl⟩
  case succ n ih =>
    obtain ⟨hg, h0', hl', hlast⟩ := poll_starved h0 hl
    have hi := ih h0' hl'
    rw [hlast] at hi
    obtain ⟨h₁, h₂, h₃, h₄, h₅⟩ := hi
    exact ⟨⟨⟨Nat.le_add_right .., hl⟩, h₁⟩, ⟨⟨h0, 0, hl⟩, h₂⟩, h₃, by rw [polls, total, hg, h₄], by rw [polls, foldl_cons, h₅]; omega⟩

theorem polls_fall_short (short : Nat) : ∃ es,
    let b := (withClock 1 1 0).1
    let s := b.exec (withClock 1 1 0).2 (.charge .flush 0 2 0)
    let s' := es.foldl b.exec s
    Allowed b.exec Legal (withClock 1 1 0).2 ([.charge .flush 0 2 0] ++ es) ∧
      Allowed b.exec (fun s _ => Starved s) s es ∧ Starved s' ∧
      1000000000 * (b.total s es + short) ≤ b.rate.toNat * (s'.last - s.last) := by
  refine ⟨polls 0 (2 * short), ?_⟩
  intro b s s'
  obtain ⟨h₁, h₂, h₃, h₄, h₅⟩ := polls_starved (s := s) (by decide) (by decide) (2 * short)
  refine ⟨⟨⟨le_rfl, rfl⟩, h₁⟩, h₂, h₃, ?_⟩
  have hrate : b.rate.toNat = 1 := rfl
  have hlast : s.last = 0 := rfl
  have htotal : b.total s (polls 0 (2 * short)) = 0 := h₄
  have hend : s'.last = s.last + 500000000 * (2 * short) := h₅
  rw [htotal, hend, hrate]
  omega

/-- A waiter that looks twice a second for a byte that takes a second never gets it: what is paid falls short by a
thousand bytes, as it does by any other amount. -/
theorem polls_lose_credit : ∃ es,
    let b := (withClock 1 1 0).1
    let s := b.exec (withClock 1 1 0).2 (.charge .flush 0 2 0)
    let s' := es.foldl b.exec s
    Allowed b.exec Legal (withClock 1 1 0).2 ([.charge .flush 0 2 0] ++ es) ∧
      Allowed b.exec (fun s _ => Starved s) s es ∧ Starved s' ∧
      1000000000 * (b.total s es + 1000) ≤ b.rate.toNat * (s'.last - s.last) :=
  polls_fall_short 1000

-- One second is worth the byte that is waited for.
theorem bucket_rate_sample :
    let b := (withClock 1 1 0).1
    let s := b.exec (withClock 1 1 0).2 (.charge .flush 0 3 0)
    1000000000 * b.total s [.poll 0 1000000000] ≤ 1000000000 * 1 + 1 * 0 ∧
      b.rate.toNat * ((b.exec s (.poll 0 1000000000)).last - s.last) < 1000000000 * (b.total s [.poll 0 1000000000] + 1) := by
  have h := bucket_rate 1 1 0 [.charge .flush 0 3 0] [.poll 0 1000000000]
    ⟨⟨le_rfl, rfl⟩, ⟨by decide, by decide⟩, trivial⟩
  exact ⟨h.1 1000000000 1000000000 (by decide), h.2 ⟨⟨⟨rfl, 0, by decide⟩, by decide, by decide⟩, trivial⟩ ⟨rfl, 0, by decide⟩⟩

end TokenBucket

end OndaDb

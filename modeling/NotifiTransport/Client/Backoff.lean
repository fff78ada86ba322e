import NotifiTransport.Core.Duration
import Mathlib.Algebra.Order.Field.Power
import Mathlib.Data.Rat.Cast.Order
import Mathlib.Tactic.Ring

/-! # Reconnection delays

The three strategies of the client. A delay is partial because the operations on
durations panic. `LinearBackoff` and `ExponentialBackoff` cap the delay only after it has become a
duration, and the latter casts its exponent from `u32` to `i32`. `InRange` says when neither
matters.
-/

namespace NotifiTransport

/-- The trait object: the delay before the next attempt, `none` for a panic. -/
structure BackoffStrategy where
  nextDelay : UInt32 → Option Duration

structure ConstantBackoff where
  delay : Duration

def ConstantBackoff.nextDelay (b : ConstantBackoff) (_attempt : UInt32) : Option Duration :=
  some b.delay

theorem toNat_sub_one {n : UInt32} (h : n ≠ 0) : (n - 1).toNat = n.toNat - 1 := by
  have hpos : n.toNat ≠ 0 := fun h' => h (UInt32.toNat_inj.mp (by simpa using h'))
  rw [UInt32.toNat_sub_of_le]
  · rfl
  · exact UInt32.le_iff_toNat_le.mpr (by simp; omega)

structure LinearBackoff where
  initialDelay : Duration
  step : Duration
  maxDelay : Duration

def LinearBackoff.nextDelay (b : LinearBackoff) (attempt : UInt32) : Option Duration :=
  if attempt = 0 then some .zero
  else do
    let product ← b.step.mul (attempt - 1)
    let delay ← b.initialDelay.add product
    return Duration.cmpMin delay b.maxDelay

namespace LinearBackoff

def strategy (b : LinearBackoff) : BackoffStrategy := ⟨b.nextDelay⟩

variable (b : LinearBackoff) {n : UInt32}

/-- `initial_delay + step * (n - 1)` in nanoseconds. -/
def sumNanos (n : ℕ) : ℕ := b.initialDelay.nanos + b.step.nanos * (n - 1)

/-- The delay without overflow: `min (initial_delay + step * (n - 1)) max_delay`. -/
def capped (n : ℕ) : Duration :=
  ⟨min (b.sumNanos n) b.maxDelay.nanos, (min_le_right _ _).trans_lt b.maxDelay.lt_bound⟩

/-- The sum before capping is a duration. -/
def InRange (n : UInt32) : Prop := b.sumNanos n.toNat < Duration.bound

variable {b}

theorem sumNanos_mono {m n : ℕ} (h : m ≤ n) : b.sumNanos m ≤ b.sumNanos n :=
  Nat.add_le_add_left (Nat.mul_le_mul_left _ (Nat.sub_le_sub_right h 1)) _

/-- The product overflows only if the sum does. -/
theorem nextDelay_of_ne_zero (h : n ≠ 0) : b.nextDelay n =
    (Duration.ofNanos (b.sumNanos n.toNat)).map fun delay => Duration.cmpMin delay b.maxDelay := by
  rw [nextDelay, if_neg h, Duration.mul, toNat_sub_one h]
  rcases hp : Duration.ofNanos (b.step.nanos * (n.toNat - 1)) with _ | product
  · have hsum : Duration.ofNanos (b.sumNanos n.toNat) = none := by
      rw [Duration.ofNanos_eq_none] at hp ⊢
      exact hp.trans (Nat.le_add_left _ _)
    rw [hsum]
    rfl
  · have hsum : b.initialDelay.add product = Duration.ofNanos (b.sumNanos n.toNat) := by
      rw [Duration.add, Duration.ofNanos_eq_some.mp hp, sumNanos]
    simp only [Option.bind_eq_bind, Option.bind_some, hsum]
    cases Duration.ofNanos (b.sumNanos n.toNat) <;> rfl

/-- In range the call returns the capped sum; else it panics. -/
theorem nextDelay_eq (h : n ≠ 0) :
    b.InRange n ∧ b.nextDelay n = some (b.capped n.toNat) ∨
      ¬ b.InRange n ∧ b.nextDelay n = none := by
  rw [nextDelay_of_ne_zero h]
  rcases hs : Duration.ofNanos (b.sumNanos n.toNat) with _ | delay
  · exact Or.inr ⟨Nat.not_lt.mpr (Duration.ofNanos_eq_none.mp hs), rfl⟩
  · have hd : delay.nanos = b.sumNanos n.toNat := Duration.ofNanos_eq_some.mp hs
    apply Or.inl
    constructor
    · rw [InRange, ← hd]
      exact delay.lt_bound
    · rw [Option.map_some, Option.some.injEq]
      ext
      rw [Duration.nanos_cmpMin, hd, capped]

theorem nextDelay_eq_capped_iff (h : n ≠ 0) :
    b.nextDelay n = some (b.capped n.toNat) ↔ b.InRange n := by
  rcases nextDelay_eq (b := b) h with ⟨hr, hd⟩ | ⟨hr, hd⟩
  · exact iff_of_true hd hr
  · rw [hd]
    exact iff_of_false nofun hr

theorem capped_le_max (n : ℕ) : (b.capped n).nanos ≤ b.maxDelay.nanos := min_le_right _ _

theorem capped_mono {m n : ℕ} (h : m ≤ n) : (b.capped m).nanos ≤ (b.capped n).nanos :=
  min_le_min_right _ (sumNanos_mono h)

end LinearBackoff

/-- `multiplier` is an `f64` in the source and an exact rational number here. -/
structure ExponentialBackoff where
  initialDelay : Duration
  multiplier : ℚ
  maxDelay : Duration

namespace ExponentialBackoff

/-- The exponent `(attempt - 1) as i32`. -/
def exponent (attempt : UInt32) : ℤ := (attempt - 1).toInt32.toInt

def nextDelay (b : ExponentialBackoff) (attempt : UInt32) : Option Duration :=
  if attempt = 0 then some .zero
  else
    let factor := b.multiplier ^ exponent attempt
    let secs := b.initialDelay.asSecsF64 * factor
    (Duration.fromSecsF64 secs).map fun delay => Duration.cmpMin delay b.maxDelay

def strategy (b : ExponentialBackoff) : BackoffStrategy := ⟨b.nextDelay⟩

variable (b : ExponentialBackoff) {n : UInt32}

/-- `initial_delay * multiplier ^ e` in whole nanoseconds. -/
def scaledNanos (e : ℤ) : ℕ := (roundHalfEven (b.initialDelay.nanos * b.multiplier ^ e)).toNat

/-- The delay as documented: `min (initial_delay * multiplier ^ (n - 1)) max_delay`. -/
def capped (n : ℕ) : Duration :=
  ⟨min (b.scaledNanos (n - 1)) b.maxDelay.nanos,
    (min_le_right _ _).trans_lt b.maxDelay.lt_bound⟩

/-- Up to attempt `2 ^ 31` the delay before capping must be a duration. Beyond it the cast
makes the exponent negative, and the shrunken delay is right only if it still reaches the
cap, or if both powers of the multiplier round to the same delay. -/
def InRange (n : UInt32) : Prop :=
  if n.toNat ≤ 2 ^ 31 then b.scaledNanos (n.toNat - 1) < Duration.bound
  else b.maxDelay.nanos ≤ b.scaledNanos (n.toNat - 1 - 2 ^ 32) ∨
    b.scaledNanos (n.toNat - 1 - 2 ^ 32) = b.scaledNanos (n.toNat - 1)

theorem exponent_eq (h : n ≠ 0) :
    exponent n = if n.toNat ≤ 2 ^ 31 then (n.toNat : ℤ) - 1 else n.toNat - 1 - 2 ^ 32 := by
  have hpos : n.toNat ≠ 0 := fun h' => h (UInt32.toNat_inj.mp (by simpa using h'))
  have hlt := n.toNat_lt
  rw [exponent, Int32.toInt, UInt32.toBitVec_toInt32, BitVec.toInt_eq_toNat_cond,
    UInt32.toNat_toBitVec, toNat_sub_one h]
  split <;> split <;> omega

variable {b}

theorem scaledNanos_mono (hm : 1 ≤ b.multiplier) {e e' : ℤ} (h : e ≤ e') :
    b.scaledNanos e ≤ b.scaledNanos e' := by
  have hp : b.multiplier ^ e ≤ b.multiplier ^ e' := zpow_le_zpow_right₀ hm h
  have hn : (0 : ℚ) ≤ b.initialDelay.nanos := Nat.cast_nonneg _
  exact Int.toNat_le_toNat (roundHalfEven_mono (mul_le_mul_of_nonneg_left hp hn))

@[simp] theorem scaledNanos_zero : b.scaledNanos 0 = b.initialDelay.nanos := by
  simp [scaledNanos]

theorem scaledNanos_natCast {m : ℕ} (hm : b.multiplier = m) (e : ℕ) :
    b.scaledNanos e = b.initialDelay.nanos * m ^ e := by
  have hc : (b.initialDelay.nanos : ℚ) * b.multiplier ^ (e : ℤ) =
      ((b.initialDelay.nanos * m ^ e : ℕ) : ℚ) := by
    rw [hm, zpow_natCast]
    push_cast
    rfl
  rw [scaledNanos, hc, roundHalfEven_natCast, Int.toNat_natCast]

theorem nextDelay_of_ne_zero (hm : 1 ≤ b.multiplier) (h : n ≠ 0) :
    b.nextDelay n = (Duration.ofNanos (b.scaledNanos (exponent n))).map
      fun delay => Duration.cmpMin delay b.maxDelay := by
  have hq : 0 ≤ b.multiplier ^ exponent n := (zpow_pos (by linarith) _).le
  simp only [nextDelay, if_neg h, Duration.fromSecsF64_scaled _ hq, scaledNanos]

theorem ofNanos_map_eq_capped {k m : ℕ} :
    (Duration.ofNanos k).map (fun delay => Duration.cmpMin delay b.maxDelay) =
        some (b.capped m) ↔
      k < Duration.bound ∧
        min k b.maxDelay.nanos = min (b.scaledNanos (m - 1)) b.maxDelay.nanos := by
  rcases hk : Duration.ofNanos k with _ | d
  · have := Duration.ofNanos_eq_none.mp hk
    simp
    omega
  · have hd := Duration.ofNanos_eq_some.mp hk
    have hlt := d.lt_bound
    rw [hd] at hlt
    simp [Duration.ext_iff, capped, hd, hlt]

/-- The call neither panics nor misses the documented value exactly in range. -/
theorem nextDelay_eq_capped_iff (hm : 1 ≤ b.multiplier) (h : n ≠ 0) :
    b.nextDelay n = some (b.capped n.toNat) ↔ b.InRange n := by
  rw [nextDelay_of_ne_zero hm h, ofNanos_map_eq_capped, exponent_eq h, InRange]
  split
  · exact and_iff_left rfl
  · next hn =>
    have hlt := n.toNat_lt
    have hinit : b.scaledNanos (n.toNat - 1 - 2 ^ 32) ≤ b.initialDelay.nanos := by
      rw [← scaledNanos_zero (b := b)]
      exact scaledNanos_mono hm (by omega)
    have hle : b.scaledNanos (n.toNat - 1 - 2 ^ 32) ≤ b.scaledNanos (n.toNat - 1) :=
      scaledNanos_mono hm (by omega)
    have hb := b.initialDelay.lt_bound
    omega

theorem capped_le_max (n : ℕ) : (b.capped n).nanos ≤ b.maxDelay.nanos := min_le_right _ _

theorem capped_mono (hm : 1 ≤ b.multiplier) {m n : ℕ} (h : m ≤ n) :
    (b.capped m).nanos ≤ (b.capped n).nanos :=
  min_le_min_right _ (scaledNanos_mono hm (by omega))

end ExponentialBackoff

end NotifiTransport

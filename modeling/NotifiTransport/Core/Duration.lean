import NotifiTransport.Lib.Rounding
import Mathlib.Tactic.NormNum
import Mathlib.Algebra.Order.Field.Rat

/-! # Durations

A `Duration` is a number of nanoseconds below `2 ^ 64` seconds. Addition, multiplication
and conversion from seconds are partial: `none` stands for the panic of the standard
library. Floating point is taken as exact rational arithmetic.
-/

namespace NotifiTransport

/-- One nanosecond more than the longest duration, `u64::MAX` seconds and 999999999 ns. -/
def Duration.bound : ℕ := 2 ^ 64 * 10 ^ 9

structure Duration where
  nanos : ℕ
  lt_bound : nanos < Duration.bound
  deriving DecidableEq, Repr

namespace Duration

@[ext] theorem ext {a b : Duration} (h : a.nanos = b.nanos) : a = b := by
  cases a; cases b; cases h; rfl

/-- The duration of so many nanoseconds, if it is representable. -/
def ofNanos (n : ℕ) : Option Duration := if h : n < bound then some ⟨n, h⟩ else none

def zero : Duration := ⟨0, by decide⟩

def fromSecs (s : ℕ) (h : s < 2 ^ 64) : Duration :=
  ⟨s * 10 ^ 9, by unfold bound; omega⟩

/-- `Duration::from_secs` at its own type. -/
def ofSecs (s : UInt64) : Duration := fromSecs s.toNat s.toNat_lt

/-- `Duration::from_secs_f64`: negative and unrepresentable values panic. -/
def fromSecsF64 (q : ℚ) : Option Duration :=
  if q < 0 then none else ofNanos (roundHalfEven (q * 10 ^ 9)).toNat

def asSecsF64 (d : Duration) : ℚ := d.nanos / 10 ^ 9

def add (a b : Duration) : Option Duration := ofNanos (a.nanos + b.nanos)

def mul (a : Duration) (k : UInt32) : Option Duration := ofNanos (a.nanos * k.toNat)

/-- `std::cmp::min`. -/
def cmpMin (a b : Duration) : Duration := if a.nanos ≤ b.nanos then a else b

@[simp] theorem nanos_cmpMin (a b : Duration) :
    (cmpMin a b).nanos = min a.nanos b.nanos := by
  unfold cmpMin
  split <;> omega

theorem ofNanos_eq_some {n : ℕ} {d : Duration} : ofNanos n = some d ↔ d.nanos = n := by
  unfold ofNanos
  split
  · next h =>
    simp only [Option.some.injEq]
    exact ⟨fun e => e ▸ rfl, fun e => Duration.ext e.symm⟩
  · next h =>
    simp only [reduceCtorEq, false_iff]
    rintro rfl
    exact h d.lt_bound

theorem ofNanos_eq_none {n : ℕ} : ofNanos n = none ↔ bound ≤ n := by
  unfold ofNanos
  split <;> simp <;> omega

/-- Scaling a duration and converting back rounds the scaled number of nanoseconds. -/
theorem fromSecsF64_scaled (d : Duration) {q : ℚ} (hq : 0 ≤ q) :
    fromSecsF64 (d.asSecsF64 * q) = ofNanos (roundHalfEven (d.nanos * q)).toNat := by
  have hn : ¬ d.asSecsF64 * q < 0 := not_lt.mpr (by unfold asSecsF64; positivity)
  have he : d.asSecsF64 * q * 10 ^ 9 = d.nanos * q := by unfold asSecsF64; ring
  rw [fromSecsF64, if_neg hn, he]

end Duration

end NotifiTransport

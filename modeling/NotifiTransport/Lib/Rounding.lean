import Mathlib.Algebra.Order.Round
import Mathlib.Data.Rat.Floor
import Mathlib.Tactic.Linarith

/-! # Rounding half to even

Mathlib's `round` sends a tie upwards. Conversions from floating point send a tie to
the even neighbour. The two agree away from ties, so the order facts come from floors.
-/

section

variable {α : Type*} [Field α] [LinearOrder α] [IsStrictOrderedRing α] [FloorRing α]

/-- The nearest integer, with ties going to the even neighbour. -/
def roundHalfEven (x : α) : ℤ := if Int.fract x = 1 / 2 ∧ Even ⌊x⌋ then ⌊x⌋ else round x

variable {x y : α}

theorem roundHalfEven_le_round (x : α) : roundHalfEven x ≤ round x := by
  unfold roundHalfEven
  split
  · rw [round_eq]
    exact Int.floor_le_floor (by linarith)
  · exact le_rfl

theorem round_mono_le (h : x ≤ y) : round x ≤ round y := by
  rw [round_eq, round_eq]
  exact Int.floor_le_floor (by linarith)

theorem roundHalfEven_mono (h : x ≤ y) : roundHalfEven x ≤ roundHalfEven y := by
  rcases h.eq_or_lt with rfl | hlt
  · exact le_rfl
  · rw [roundHalfEven.eq_def y]
    split
    · next hy =>
      refine (roundHalfEven_le_round x).trans ?_
      have hf : y = ⌊y⌋ + 1 / 2 := by rw [← hy.1, Int.floor_add_fract]
      rw [round_eq, ← Int.lt_add_one_iff, Int.floor_lt]
      push_cast
      linarith
    · exact (roundHalfEven_le_round x).trans (round_mono_le h)

@[simp] theorem roundHalfEven_natCast (n : ℕ) : roundHalfEven (n : α) = n := by
  simp [roundHalfEven]

end

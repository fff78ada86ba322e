import Mathlib.Algebra.BigOperators.Fin
import Mathlib.Algebra.Order.BigOperators.Group.Finset
import Mathlib.Order.Interval.Finset.Defs

/-! # Turns by priority

Classes are ordered, and a turn goes to the first waiting class that has credits. When no waiting
class has any, a new round gives every class its weight and the turn goes to the first waiting
class. A waiting class is passed over only while others spend credits: those they have left in this
round, and those of the classes before it in the next one.
-/

namespace Turns

variable {ι : Type*} [LinearOrder ι]

/-- One turn of class `k` among the waiting classes `W`, out of the current round or a new one. -/
inductive Turn (w : ι → ℕ) (W : Set ι) (c : ι → ℕ) (k : ι) (c' : ι → ℕ) : Prop where
  | spend : (∀ j ∈ W, j < k → c j = 0) → c' k + 1 = c k → (∀ j ≠ k, c' j = c j) → Turn w W c k c'
  | renew : (∀ j ∈ W, c j = 0) → (∀ j ∈ W, k ≤ j) → c' k + 1 = w k → (∀ j ≠ k, c' j = w j) →
      Turn w W c k c'

variable {w c c' : ι → ℕ} {W : Set ι} {i k : ι}

/-- Spending one credit of a class lowers the sum over any classes that include it. -/
theorem sum_lt_of_spend {S : Finset ι} (hk : k ∈ S) (hc : c' k + 1 = c k)
    (hrest : ∀ j ≠ k, c' j = c j) : ∑ j ∈ S, c' j < ∑ j ∈ S, c j := by
  apply Finset.sum_lt_sum
  · intro j _
    by_cases hj : j = k
    · subst hj
      omega
    · exact (hrest j hj).le
  · exact ⟨k, hk, by omega⟩

variable [Fintype ι]

/-- The number of turns that can pass class `i` over before it has one. -/
def delay (w c : ι → ℕ) (i : ι) : ℕ :=
  if c i = 0 then ∑ j, c j + ∑ j with j < i, w j else ∑ j with j < i, c j

/-- The delay of class `i` in the worst case: the others have all their credits left. -/
def bound (w : ι → ℕ) (i : ι) : ℕ := ∑ j with j ≠ i, w j + ∑ j with j < i, w j

theorem delay_le (hc : ∀ j, c j ≤ w j) (i : ι) : delay w c i ≤ bound w i := by
  unfold delay bound
  split
  · next hi =>
    apply Nat.add_le_add_right
    calc ∑ j, c j = ∑ j with j ≠ i, c j := by
          symm
          apply Finset.sum_filter_of_ne
          rintro j - hj rfl
          exact hj hi
      _ ≤ ∑ j with j ≠ i, w j := Finset.sum_le_sum fun j _ => hc j
  · calc ∑ j with j < i, c j ≤ ∑ j with j < i, w j := Finset.sum_le_sum fun j _ => hc j
      _ ≤ ∑ j with j ≠ i, w j + ∑ j with j < i, w j := Nat.le_add_left _ _

/-- A turn that passes a waiting class over uses up some of its delay. -/
theorem Turn.delay_lt (h : Turn w W c k c') (hi : i ∈ W) (hk : k ≠ i) (hw : 0 < w i) :
    delay w c' i < delay w c i := by
  cases h with
  | spend hfirst hspent hrest =>
    have hi' : c' i = c i := hrest i (Ne.symm hk)
    unfold delay
    rw [hi']
    split
    · exact Nat.add_lt_add_right (sum_lt_of_spend (Finset.mem_univ k) hspent hrest) _
    · next hpos =>
      -- while the class has credits, only the classes before it come first
      have hlt : k < i := by
        rcases lt_trichotomy k i with hlt | heq | hgt
        · exact hlt
        · exact absurd heq hk
        · exact absurd (hfirst i hi hgt) hpos
      exact sum_lt_of_spend (by simp [hlt]) hspent hrest
  | renew hzero hfirst hspent hrest =>
    have hi' : c' i = w i := hrest i (Ne.symm hk)
    have hlt : k < i := lt_of_le_of_ne (hfirst i hi) hk
    unfold delay
    rw [if_pos (hzero i hi), if_neg (by omega)]
    calc ∑ j with j < i, c' j < ∑ j with j < i, w j := sum_lt_of_spend (by simp [hlt]) hspent hrest
      _ ≤ ∑ j, c j + ∑ j with j < i, w j := Nat.le_add_left _ _

end Turns

import Mathlib.Algebra.Order.Ring.Abs
import Mathlib.Algebra.Order.Ring.Int
import Mathlib.Logic.Function.Basic
import Mathlib.Tactic.Linarith
import Mathlib.Tactic.Ring

/-! # Rounds of credits

Classes are served one item at a time. A service costs its class one credit; a new round gives
every class its weight in credits. If no round begins while a class of `B` has credits left, the
classes of `B` get their weights of every full round, and differ by the two broken rounds at the
ends of an interval only.
-/

namespace Credits

variable {ι : Type*} [DecidableEq ι]

/-- One service of class `k`, out of the current round or out of a new one. -/
inductive Serve (w : ι → ℕ) (B : Set ι) (c : ι → ℕ) (k : ι) : (ι → ℕ) → Prop where
  | spend : 0 < c k → Serve w B c k (Function.update c k (c k - 1))
  | renew : (∀ i ∈ B, c i = 0) → Serve w B c k (Function.update w k (w k - 1))

/-- The services of an interval, in their order. -/
inductive Serves (w : ι → ℕ) (B : Set ι) (c : ι → ℕ) : List ι → (ι → ℕ) → Prop where
  | nil : Serves w B c [] c
  | concat {ks c' c''} {k : ι} : Serves w B c ks c' → Serve w B c' k c'' →
      Serves w B c (ks ++ [k]) c''

variable {w c c' : ι → ℕ} {B : Set ι} {k : ι} {ks : List ι}

theorem count_add_update (hc : 0 < c k) (i : ι) :
    [k].count i + Function.update c k (c k - 1) i = c i := by
  by_cases h : i = k
  · subst h
    simp only [List.count_singleton_self, Function.update_self]
    omega
  · have hk : [k].count i = 0 := by simp [List.count_eq_zero, h]
    rw [hk, Function.update_of_ne h, zero_add]

theorem Serve.le (hw : ∀ i, c i ≤ w i) (h : Serve w B c k c') (i : ι) : c' i ≤ w i := by
  have hu : ∀ d : ι → ℕ, d i ≤ w i → Function.update d k (d k - 1) i ≤ w i := by
    intro d hd
    by_cases hi : i = k
    · subst hi
      rw [Function.update_self]
      omega
    · rwa [Function.update_of_ne hi]
  cases h with
  | spend _ => exact hu c (hw i)
  | renew _ => exact hu w le_rfl

theorem Serves.le (hw : ∀ i, c i ≤ w i) (h : Serves w B c ks c') (i : ι) : c' i ≤ w i := by
  induction h generalizing i with
  | nil => exact hw i
  | concat _ hs ih => exact hs.le ih i

/-- A class of `B` has had its credits of the rounds begun in the interval, and what it had left
before, except for what it has left now. -/
theorem Serves.count_add (hw : ∀ i, 0 < w i) (h : Serves w B c ks c') :
    ∃ r : ℕ, ∀ i ∈ B, ks.count i + c' i = c i + r * w i := by
  induction h with
  | nil => exact ⟨0, fun i _ => by simp⟩
  | @concat ks c' c'' k _ hs ih =>
    obtain ⟨r, hr⟩ := ih
    cases hs with
    | spend hk =>
      refine ⟨r, fun i hi => ?_⟩
      rw [List.count_append, add_assoc, count_add_update hk]
      exact hr i hi
    | renew hz =>
      refine ⟨r + 1, fun i hi => ?_⟩
      have hprev := hr i hi
      rw [hz i hi, add_zero] at hprev
      rw [List.count_append, add_assoc, count_add_update (hw k), hprev, add_mul, one_mul, add_assoc]

/-- Two classes of `B` share the services of an interval in the proportion of their weights. -/
theorem Serves.fair (hw : ∀ i, 0 < w i) (hc : ∀ i, c i ≤ w i) (h : Serves w B c ks c') {i j : ι}
    (hi : i ∈ B) (hj : j ∈ B) :
    |(ks.count i : ℤ) * w j - ks.count j * w i| ≤ 2 * w i * w j := by
  obtain ⟨r, hr⟩ := h.count_add hw
  have hS : ∀ k ∈ B, (ks.count k : ℤ) = c k - c' k + r * w k := by
    intro k hk
    have hk' : (ks.count k : ℤ) + c' k = c k + r * w k := by exact_mod_cast hr k hk
    linarith
  -- what a class gains or loses at the ends of the interval is at most one round
  have hbound : ∀ k m : ι, |((c k : ℤ) - c' k) * w m| ≤ w k * w m := by
    intro k m
    rw [abs_mul, Nat.abs_cast]
    apply mul_le_mul_of_nonneg_right
    · have h₁ := hc k
      have h₂ := h.le hc k
      rw [abs_le]
      omega
    · exact Int.natCast_nonneg _
  calc |(ks.count i : ℤ) * w j - ks.count j * w i|
      = |((c i : ℤ) - c' i) * w j - ((c j : ℤ) - c' j) * w i| := by
        rw [hS i hi, hS j hj]
        ring_nf
    _ ≤ |((c i : ℤ) - c' i) * w j| + |((c j : ℤ) - c' j) * w i| := abs_sub _ _
    _ ≤ w i * w j + w j * w i := add_le_add (hbound i j) (hbound j i)
    _ = 2 * w i * w j := by ring

end Credits

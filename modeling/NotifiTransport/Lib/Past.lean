import NotifiTransport.Lib.Mealy

/-! # The past of a trace

Two operators of past-time logic on finite traces, with the rules that extend a trace on the right.
The outputs of a run can be split at a letter, so that a condition on what precedes the letters of
a kind is one on the steps that emit them.
-/

namespace Trace

variable {α : Type*} {p q u : α → Prop} {P Q : List α → Prop} {tr o : List α} {x : α}

/-- Some letter is in `p`, and no letter after it is in `q`. -/
def Since (p q : α → Prop) (tr : List α) : Prop :=
  ∃ a x b, tr = a ++ x :: b ∧ p x ∧ ∀ y ∈ b, ¬ q y

/-- What precedes a letter in `u` satisfies `P`. -/
def Whenever (u : α → Prop) (P : List α → Prop) (tr : List α) : Prop :=
  ∀ a x b, tr = a ++ x :: b → u x → P a

/-- A split of a longer trace is at the new letter or in the trace before. -/
theorem concat_eq_split {a b : List α} {y : α} : tr ++ [x] = a ++ y :: b ↔
    (tr = a ∧ x = y ∧ b = []) ∨ ∃ c, tr = a ++ y :: c ∧ b = c ++ [x] := by
  constructor
  · intro h
    rcases List.eq_nil_or_concat b with rfl | ⟨c, z, rfl⟩
    · obtain ⟨rfl, hxy⟩ := List.append_inj' h rfl
      cases hxy
      exact Or.inl ⟨rfl, rfl, rfl⟩
    · rw [List.concat_eq_append, ← List.cons_append, ← List.append_assoc] at h
      obtain ⟨rfl, hxz⟩ := List.append_inj' h rfl
      cases hxz
      exact Or.inr ⟨c, rfl, List.concat_eq_append⟩
  · rintro (⟨rfl, rfl, rfl⟩ | ⟨c, rfl, rfl⟩)
    · rfl
    · simp

@[simp] theorem not_since_nil : ¬ Since p q [] := by
  rintro ⟨a, x, b, h, -⟩
  exact absurd h.symm (by simp)

theorem since_concat : Since p q (tr ++ [x]) ↔ p x ∨ ¬ q x ∧ Since p q tr := by
  constructor
  · rintro ⟨a, y, b, h, hp, hq⟩
    rcases concat_eq_split.mp h with ⟨-, rfl, -⟩ | ⟨c, rfl, rfl⟩
    · exact Or.inl hp
    · rw [List.forall_mem_append, List.forall_mem_singleton] at hq
      exact Or.inr ⟨hq.2, a, y, c, rfl, hp, hq.1⟩
  · rintro (hp | ⟨hq, a, y, b, rfl, hp, hb⟩)
    · exact ⟨tr, x, [], rfl, hp, by simp⟩
    · refine ⟨a, y, b ++ [x], by simp, hp, ?_⟩
      rw [List.forall_mem_append, List.forall_mem_singleton]
      exact ⟨hb, hq⟩

end Trace

namespace Mealy

open Trace

variable {σ ι ω : Type*} {M : Mealy σ ι ω} {s t : σ} {is : List ι} {tr : List ω}
  {u : ω → Prop} {P Q : List ω → Prop}

/-- Two conditions that agree at every step of the run which emits a letter in `u`. -/
theorem run_whenever_iff
    (step : ∀ pre i post, is = pre ++ i :: post → ∀ m v m' o x o', M.run s pre = some (m, v) →
      M.step m i = some (m', o ++ x :: o') → u x → (P (v ++ o) ↔ Q (v ++ o)))
    (h : M.run s is = some (t, tr)) : Whenever u P tr ↔ Whenever u Q tr := by
  have hat : ∀ a x b, tr = a ++ x :: b → u x → (P a ↔ Q a) := by
    rintro a x b rfl hx
    obtain ⟨pre, i, post, m, v, m', o, o', his, hm, hs, rfl⟩ := run_split h
    exact step pre i post his m v m' o x o' hm hs hx
  constructor
  · intro hP a x b hab hx
    exact (hat a x b hab hx).mp (hP a x b hab hx)
  · intro hQ a x b hab hx
    exact (hat a x b hab hx).mpr (hQ a x b hab hx)

end Mealy

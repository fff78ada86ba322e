import Mathlib.Data.List.TakeWhile

/-! # Trimming a list at both ends

Trimming removes the elements that meet a predicate from both ends of a list. A list trims to `v`,
when `v` has no such elements, exactly if it is `v` with such elements around it.
-/

namespace Trim

variable {α : Type*} {p : α → Bool} {v l ws : List α}

/-- Remove the elements that meet `p` from both ends. -/
def trimBy (p : α → Bool) (l : List α) : List α :=
  ((l.dropWhile p).reverse.dropWhile p).reverse

/-- `l` is `v` with elements that meet `p` around it. -/
def Padded (p : α → Bool) (v l : List α) : Prop :=
  ∃ ws ws', (∀ a ∈ ws, p a = true) ∧ (∀ a ∈ ws', p a = true) ∧ l = ws ++ v ++ ws'

@[simp] theorem trimBy_nil : trimBy p [] = [] := rfl

theorem trimBy_append_left (h : ∀ a ∈ ws, p a = true) : trimBy p (ws ++ l) = trimBy p l := by
  rw [trimBy, List.dropWhile_append_of_pos h, trimBy]

theorem dropWhile_eq_nil (h : ∀ a ∈ ws, p a = true) : ws.dropWhile p = [] :=
  List.dropWhile_eq_nil_iff.mpr h

theorem trimBy_append_right (h : ∀ a ∈ ws, p a = true) : trimBy p (l ++ ws) = trimBy p l := by
  have hr : ∀ a ∈ ws.reverse, p a = true := fun a ha => h a (List.mem_reverse.mp ha)
  unfold trimBy
  rw [List.dropWhile_append]
  split
  · next hl =>
    rw [List.isEmpty_iff.mp hl, dropWhile_eq_nil h]
  · rw [List.reverse_append, List.dropWhile_append_of_pos hr]

theorem padded_trimBy (p : α → Bool) (l : List α) : Padded p (trimBy p l) l := by
  refine ⟨l.takeWhile p, ((l.dropWhile p).reverse.takeWhile p).reverse, ?_, ?_, ?_⟩
  · intro a ha
    exact List.mem_takeWhile_imp ha
  · intro a ha
    exact List.mem_takeWhile_imp (List.mem_reverse.mp ha)
  · rw [trimBy, List.append_assoc, ← List.reverse_append, List.takeWhile_append_dropWhile,
      List.reverse_reverse, List.takeWhile_append_dropWhile]

theorem dropWhile_eq_self_iff_head :
    l.dropWhile p = l ↔ ∀ a, l.head? = some a → p a = false := by
  cases l with
  | nil => simp
  | cons a l => simp [List.dropWhile_eq_self_iff]

/-- A list is trimmed when neither its first nor its last element meets the predicate. -/
theorem trimBy_eq_self_iff : trimBy p l = l ↔
    (∀ a, l.head? = some a → p a = false) ∧ ∀ a, l.getLast? = some a → p a = false := by
  rw [← dropWhile_eq_self_iff_head, ← List.head?_reverse, ← dropWhile_eq_self_iff_head]
  constructor
  · intro h
    have hdrop : l.dropWhile p = l := by
      apply (List.dropWhile_suffix p).eq_of_length_le
      calc l.length = (trimBy p l).length := by rw [h]
        _ ≤ (l.dropWhile p).reverse.length := by
          rw [trimBy, List.length_reverse]
          exact (List.dropWhile_suffix p).length_le
        _ = (l.dropWhile p).length := List.length_reverse
    rw [trimBy, hdrop] at h
    exact ⟨hdrop, List.reverse_eq_iff.mp h⟩
  · rintro ⟨hdrop, hrev⟩
    rw [trimBy, hdrop, hrev, List.reverse_reverse]

theorem trimBy_of_forall (h : ∀ a ∈ v, p a = false) : trimBy p v = v := by
  rw [trimBy_eq_self_iff]
  constructor
  · intro a ha
    exact h a (List.mem_of_head? ha)
  · intro a ha
    exact h a (List.mem_of_getLast? ha)

theorem mem_of_mem_trimBy {a : α} (h : a ∈ trimBy p l) : a ∈ l := by
  obtain ⟨ws, ws', -, -, hl⟩ := padded_trimBy p l
  rw [hl]
  exact List.mem_append_left _ (List.mem_append_right _ h)

/-- Trimming removes nothing but elements that meet the predicate. -/
theorem countP_trimBy (p : α → Bool) (l : List α) :
    (trimBy p l).countP (!p ·) = l.countP (!p ·) := by
  obtain ⟨ws, ws', hws, hws', hl⟩ := padded_trimBy p l
  have hzero : ∀ us : List α, (∀ a ∈ us, p a = true) → us.countP (!p ·) = 0 := by
    intro us hus
    rw [List.countP_eq_zero]
    intro a ha
    simp [hus a ha]
  have hcount := congrArg (List.countP (!p ·)) hl
  rw [List.countP_append, List.countP_append, hzero ws hws, hzero ws' hws'] at hcount
  omega

/-- What a list without the elements to be trimmed is the trimmed form of. -/
theorem trimBy_eq_iff (hv : ∀ a ∈ v, p a = false) : trimBy p l = v ↔ Padded p v l := by
  constructor
  · rintro rfl
    exact padded_trimBy p l
  · rintro ⟨ws, ws', hws, hws', rfl⟩
    rw [trimBy_append_right hws', trimBy_append_left hws, trimBy_of_forall hv]

end Trim

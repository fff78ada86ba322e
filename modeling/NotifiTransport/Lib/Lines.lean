import Mathlib.Data.List.Basic

/-! # Complete lines

A list is read up to the last separator in it: the complete lines before that, and the rest. Reading
a list in two parts gives the same lines as reading it at once.
-/

namespace Lines

variable {α : Type*} [DecidableEq α] {a : α} {l m x : List α} {ls : List (List α)}

/-- The complete lines of a list and what follows the last separator. -/
def cut (a : α) : List α → List (List α) × List α
  | [] => ([], [])
  | b :: l =>
    if b = a then ([] :: (cut a l).1, (cut a l).2)
    else match (cut a l).1 with
      | [] => ([], b :: (cut a l).2)
      | x :: xs => ((b :: x) :: xs, (cut a l).2)

/-- Lines with the separator after each. -/
def unlines (a : α) (ls : List (List α)) : List α := ls.flatMap fun l => l ++ [a]

theorem cut_of_notMem (h : a ∉ l) : cut a l = ([], l) := by
  induction l with
  | nil => rfl
  | cons b l ih =>
    rw [List.mem_cons, not_or] at h
    rw [cut, if_neg (Ne.symm h.1), ih h.2]

theorem cut_append_cons (h : a ∉ x) : cut a (x ++ a :: l) = (x :: (cut a l).1, (cut a l).2) := by
  induction x with
  | nil => rw [List.nil_append, cut, if_pos rfl]
  | cons b x ih =>
    rw [List.mem_cons, not_or] at h
    rw [List.cons_append, cut, if_neg (Ne.symm h.1), ih h.2]

/-- A list is a rest without separators, or begins with a complete line. -/
theorem notMem_or_exists_line (a : α) (l : List α) :
    a ∉ l ∨ ∃ x m, l = x ++ a :: m ∧ a ∉ x := by
  by_cases h : a ∈ l
  · obtain ⟨x, m, rfl, hx⟩ := List.eq_append_cons_of_mem h
    exact Or.inr ⟨x, m, rfl, hx⟩
  · exact Or.inl h

/-- Induction over the complete lines of a list. -/
@[elab_as_elim]
theorem line_induction {motive : List α → Prop} (a : α) (l : List α)
    (rest : ∀ l, a ∉ l → motive l)
    (line : ∀ x l, a ∉ x → motive l → motive (x ++ a :: l)) : motive l := by
  induction hn : l.length using Nat.strongRecOn generalizing l with
  | ind n ih =>
    rcases notMem_or_exists_line a l with h | ⟨x, m, rfl, hx⟩
    · exact rest l h
    · apply line x m hx
      apply ih m.length _ m rfl
      rw [← hn, List.length_append, List.length_cons]
      omega

/-- Reading on from the rest of the first part. -/
theorem cut_append (a : α) (l m : List α) : cut a (l ++ m) =
    ((cut a l).1 ++ (cut a ((cut a l).2 ++ m)).1, (cut a ((cut a l).2 ++ m)).2) := by
  induction l using line_induction a with
  | rest l h => simp [cut_of_notMem h]
  | line x l hx ih =>
    rw [List.append_assoc, List.cons_append, cut_append_cons hx, cut_append_cons hx, ih]
    rfl

theorem cut_unlines (h : ∀ l ∈ ls, a ∉ l) : cut a (unlines a ls) = (ls, []) := by
  induction ls with
  | nil => rfl
  | cons l ls ih =>
    obtain ⟨hl, hls⟩ := List.forall_mem_cons.mp h
    have hsplit : unlines a (l :: ls) = l ++ a :: unlines a ls := by simp [unlines]
    rw [hsplit, cut_append_cons hl, ih hls]

theorem notMem_cut (a : α) (l : List α) : a ∉ (cut a l).2 := by
  induction l using line_induction a with
  | rest l h => rwa [cut_of_notMem h]
  | line x l hx ih => rwa [cut_append_cons hx]

/-- The lines of a list are parts of it. -/
theorem mem_cut (h : x ∈ (cut a l).1) : ∃ u v, l = u ++ x ++ v := by
  induction l using line_induction a with
  | rest l hl =>
    rw [cut_of_notMem hl] at h
    cases h
  | line y l hy ih =>
    rw [cut_append_cons hy] at h
    rcases List.mem_cons.mp h with rfl | h
    · exact ⟨[], a :: l, rfl⟩
    · obtain ⟨u, v, rfl⟩ := ih h
      exact ⟨y ++ a :: u, v, by simp⟩

theorem notMem_line (h : x ∈ (cut a l).1) : a ∉ x := by
  induction l using line_induction a with
  | rest l hl =>
    rw [cut_of_notMem hl] at h
    cases h
  | line y l hy ih =>
    rw [cut_append_cons hy] at h
    rcases List.mem_cons.mp h with rfl | h
    · exact hy
    · exact ih h

/-- The pieces between separators contain none. -/
theorem notMem_splitOn (a : α) (l : List α) : ∀ x ∈ l.splitOn a, a ∉ x := by
  induction l using line_induction a with
  | rest l h =>
    rw [List.splitOn_eq_singleton h, List.forall_mem_singleton]
    exact h
  | line x l hx ih =>
    rw [List.splitOn_append_cons_self_of_not_mem hx, List.forall_mem_cons]
    exact ⟨hx, ih⟩

theorem mem_of_mem_splitOn {b : α} (hx : x ∈ l.splitOn a) (hb : b ∈ x) : b ∈ l := by
  induction l using line_induction a with
  | rest l h =>
    rw [List.splitOn_eq_singleton h, List.mem_singleton] at hx
    exact hx ▸ hb
  | line y l hy ih =>
    rw [List.splitOn_append_cons_self_of_not_mem hy, List.mem_cons] at hx
    rcases hx with rfl | hx
    · exact List.mem_append_left _ hb
    · exact List.mem_append_right _ (List.mem_cons_of_mem _ (ih hx))

end Lines

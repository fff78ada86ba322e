import Mathlib.Algebra.BigOperators.Fin
import Mathlib.Algebra.Order.BigOperators.Group.Finset
import Mathlib.Algebra.Order.Group.Multiset
import Mathlib.Data.List.FinRange
import Mathlib.Tactic.Abel

/-! # The weighted fair queuing scheduler

One queue for each priority and a number of credits left in the current round. `pop`
serves the first nonempty queue that has credits; when there is none it starts a new
round and serves the first nonempty queue.
-/

namespace NotifiTransport

inductive MessagePriority where
  | realTime
  | normal
  | stream
  | bulk
  deriving DecidableEq, Repr

/-- The queue index `priority as usize`. -/
def MessagePriority.toFin : MessagePriority → Fin 4
  | realTime => 0
  | normal => 1
  | stream => 2
  | bulk => 3

/-- Credits per scheduling round. -/
def wfqWeights : Fin 4 → ℕ := ![8, 4, 2, 1]

structure WfqScheduler (α : Type*) where
  queues : Fin 4 → List α
  credits : Fin 4 → ℕ

namespace WfqScheduler

variable {α : Type*}

def new : WfqScheduler α := ⟨fun _ => [], wfqWeights⟩

/-- Push an item to the back of the queue of its priority. -/
def enqueue (s : WfqScheduler α) (item : α) (priority : MessagePriority) : WfqScheduler α :=
  { s with queues :=
      Function.update s.queues priority.toFin (s.queues priority.toFin ++ [item]) }

/-- Take one credit and one item from queue `i`. -/
def serve (s : WfqScheduler α) (i : Fin 4) : Option α × WfqScheduler α :=
  ((s.queues i).head?,
    ⟨Function.update s.queues i (s.queues i).tail,
      Function.update s.credits i (s.credits i - 1)⟩)

def pop (s : WfqScheduler α) : Option α × WfqScheduler α :=
  match (List.finRange 4).find? fun i => decide (0 < s.credits i) && !(s.queues i).isEmpty with
  | some i => s.serve i
  | none =>
    let reset : WfqScheduler α := { s with credits := wfqWeights }
    match (List.finRange 4).find? fun i => !(reset.queues i).isEmpty with
    | some i => reset.serve i
    | none => (none, reset)

def isEmpty (s : WfqScheduler α) : Bool := (List.finRange 4).all fun i => (s.queues i).isEmpty

def len (s : WfqScheduler α) : ℕ := ((List.finRange 4).map fun i => (s.queues i).length).sum

/-- All waiting items, without their order. -/
def items (s : WfqScheduler α) : Multiset α := ∑ i, (s.queues i : Multiset α)

variable {s s' : WfqScheduler α} {x : α}

theorem isEmpty_iff : s.isEmpty = true ↔ ∀ i, s.queues i = [] := by
  simp [isEmpty]

theorem isEmpty_iff_items : s.isEmpty = true ↔ s.items = 0 := by
  simp [isEmpty_iff, items, Finset.sum_eq_zero_iff]

@[simp] theorem isEmpty_new : (new : WfqScheduler α).isEmpty = true := by
  simp [isEmpty_iff, new]

@[simp] theorem items_new : (new : WfqScheduler α).items = 0 := by
  simp [items, new]

/-- Replacing one queue changes the items by the difference of that queue. -/
theorem items_update (q : Fin 4 → List α) (c : Fin 4 → ℕ) (i : Fin 4) (l : List α) :
    (⟨Function.update q i l, c⟩ : WfqScheduler α).items + (q i : Multiset α) =
      (l : Multiset α) + (⟨q, c⟩ : WfqScheduler α).items := by
  have hu : ∀ j ∈ Finset.univ.erase i, ((Function.update q i l j : List α) : Multiset α) = q j :=
    fun j hj => by rw [Function.update_of_ne (Finset.ne_of_mem_erase hj)]
  simp only [items]
  rw [← Finset.add_sum_erase _ _ (Finset.mem_univ i),
    ← Finset.add_sum_erase _ (fun j => (q j : Multiset α)) (Finset.mem_univ i),
    Finset.sum_congr rfl hu, Function.update_self]
  abel

theorem items_enqueue (s : WfqScheduler α) (x : α) (p : MessagePriority) :
    (s.enqueue x p).items = x ::ₘ s.items := by
  have h := items_update s.queues s.credits p.toFin (s.queues p.toFin ++ [x])
  have he : ((s.queues p.toFin ++ [x] : List α) : Multiset α) =
      {x} + (s.queues p.toFin : Multiset α) := by
    rw [← Multiset.coe_add, add_comm]
    rfl
  rw [he, add_right_comm, add_left_inj] at h
  rw [← Multiset.singleton_add]
  exact h

theorem not_isEmpty_enqueue (s : WfqScheduler α) (x : α) (p : MessagePriority) :
    (s.enqueue x p).isEmpty = false := by
  rw [Bool.eq_false_iff, ne_eq, isEmpty_iff_items, items_enqueue]
  exact Multiset.cons_ne_zero

/-- `pop` finds nothing, or serves a queue out of its credits, or serves a queue out of a new round
once every waiting queue has used its credits. -/
theorem pop_round (s : WfqScheduler α) :
    (s.isEmpty = true ∧ s.pop = (none, { s with credits := wfqWeights })) ∨
      ∃ (i : Fin 4) (x : α) (rest : List α) (c : Fin 4 → ℕ), s.queues i = x :: rest ∧
        s.pop = (some x, ⟨Function.update s.queues i rest, c⟩) ∧
        (0 < s.credits i ∧ c = Function.update s.credits i (s.credits i - 1) ∨
          (∀ j, s.queues j ≠ [] → s.credits j = 0) ∧
            c = Function.update wfqWeights i (wfqWeights i - 1)) := by
  rcases hf : (List.finRange 4).find? fun i =>
    decide (0 < s.credits i) && !(s.queues i).isEmpty with _ | i
  · rcases hg : (List.finRange 4).find? fun i => !(s.queues i).isEmpty with _ | i
    · refine Or.inl ⟨?_, by simp [pop, hf, hg]⟩
      rw [isEmpty_iff]
      intro i
      simpa using List.find?_eq_none.mp hg i (List.mem_finRange i)
    · have hi := List.find?_some hg
      obtain ⟨x, rest, hq⟩ := List.exists_cons_of_ne_nil (l := s.queues i) (by simpa using hi)
      refine Or.inr ⟨i, x, rest, _, hq, by simp [pop, hf, hg, serve, hq], Or.inr ⟨?_, rfl⟩⟩
      intro j hj
      have hn := List.find?_eq_none.mp hf j (List.mem_finRange j)
      simp only [Bool.and_eq_true, decide_eq_true_eq, Bool.not_eq_true',
        List.isEmpty_eq_false_iff, not_and_or] at hn
      rcases hn with hn | hn
      · omega
      · exact absurd hj hn
  · have hi := List.find?_some hf
    simp only [Bool.and_eq_true, Bool.not_eq_true', List.isEmpty_eq_false_iff,
      decide_eq_true_eq] at hi
    obtain ⟨x, rest, hq⟩ := List.exists_cons_of_ne_nil hi.2
    exact Or.inr ⟨i, x, rest, _, hq, by simp [pop, hf, serve, hq], Or.inl ⟨hi.1, rfl⟩⟩

theorem pop_cases (s : WfqScheduler α) :
    (s.isEmpty = true ∧ s.pop = (none, { s with credits := wfqWeights })) ∨
      ∃ (i : Fin 4) (x : α) (rest : List α) (c : Fin 4 → ℕ), s.queues i = x :: rest ∧
        s.pop = (some x, ⟨Function.update s.queues i rest, c⟩) := by
  rcases s.pop_round with he | ⟨i, x, rest, c, hq, hp, -⟩
  · exact Or.inl he
  · exact Or.inr ⟨i, x, rest, c, hq, hp⟩

/-- Taking the first item of a queue takes it from the items. -/
theorem items_pop {i : Fin 4} {rest : List α} (c : Fin 4 → ℕ) (hq : s.queues i = x :: rest) :
    s.items = x ::ₘ (⟨Function.update s.queues i rest, c⟩ : WfqScheduler α).items := by
  have hu := items_update s.queues c i rest
  rw [hq, ← Multiset.cons_coe, Multiset.add_cons, add_comm, ← Multiset.add_cons,
    add_right_inj] at hu
  rw [hu]
  rfl

theorem pop_none (h : s.pop = (none, s')) : s.isEmpty = true ∧ s'.isEmpty = true := by
  rcases s.pop_cases with ⟨he, hp⟩ | ⟨i, x, rest, c, -, hp⟩
  · rw [hp] at h
    obtain ⟨-, rfl⟩ := Prod.mk.inj h
    exact ⟨he, isEmpty_iff.mpr (isEmpty_iff.mp he)⟩
  · rw [hp] at h
    cases h

theorem pop_some (h : s.pop = (some x, s')) : s.items = x ::ₘ s'.items := by
  rcases s.pop_cases with ⟨he, hp⟩ | ⟨i, y, rest, c, hq, hp⟩
  · rw [hp] at h
    cases h
  · rw [hp] at h
    cases h
    exact items_pop c hq

/-- The queue that `pop` takes an item from, if there is one. -/
def served (s : WfqScheduler α) : List (Fin 4) :=
  (List.finRange 4).filter fun i => (s.pop.2.queues i).length < (s.queues i).length

theorem served_of_pop {i : Fin 4} {rest : List α} {c : Fin 4 → ℕ} (hq : s.queues i = x :: rest)
    (hp : s.pop = (some x, ⟨Function.update s.queues i rest, c⟩)) : s.served = [i] := by
  have h : ∀ j, decide ((s.pop.2.queues j).length < (s.queues j).length) = (j == i) := by
    intro j
    by_cases hj : j = i
    · subst hj
      simp [hp, hq]
    · simp [hp, hj]
  have hone : ∀ i : Fin 4, (List.finRange 4).filter (fun j => j == i) = [i] := by decide
  unfold served
  simp only [h]
  exact hone i

theorem served_of_isEmpty (he : s.isEmpty = true) : s.served = [] := by
  have hq := isEmpty_iff.mp he
  simp [served, hq]

end WfqScheduler

end NotifiTransport

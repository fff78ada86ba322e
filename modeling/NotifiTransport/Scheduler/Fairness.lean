import NotifiTransport.Lib.Credits
import NotifiTransport.Lib.Mealy
import NotifiTransport.Scheduler.Wfq

/-! # Weighted fairness of the scheduler

The scheduler instantiates rounds of credits: a new round begins only when every waiting queue
has used its credits. Two queues that always wait are served in the proportion of their weights,
up to one round on each side of the interval.
-/

namespace NotifiTransport

inductive WfqOp (α : Type*) where
  | enqueue (item : α) (priority : MessagePriority)
  | pop

theorem wfqWeights_pos (i : Fin 4) : 0 < wfqWeights i := by
  revert i
  decide

namespace WfqScheduler

variable {α : Type*}

/-- The scheduler under any sequence of operations. The outputs are the queues served. -/
def machine : Mealy (WfqScheduler α) (WfqOp α) (Fin 4) where
  step s
    | .enqueue item priority => some (s.enqueue item priority, [])
    | .pop => some (s.pop.2, s.served)

variable {s s' t : WfqScheduler α} {op : WfqOp α} {ops pre mid : List (WfqOp α)}
  {o u v : List (Fin 4)} {B : Set (Fin 4)}

/-- Every queue of `B` has an item waiting when the scheduler pops. -/
def Backlogged (B : Set (Fin 4)) (s : WfqScheduler α) : WfqOp α → Prop
  | .enqueue _ _ => True
  | .pop => ∀ i ∈ B, s.queues i ≠ []

theorem step_serves (hB : Backlogged B s op) (h : machine.step s op = some (s', o)) :
    o = [] ∧ (s'.credits = s.credits ∨ s'.credits = wfqWeights ∧ B = ∅) ∨
      ∃ i, o = [i] ∧ Credits.Serve wfqWeights B s.credits i s'.credits := by
  cases op with
  | enqueue item priority =>
    cases h
    exact Or.inl ⟨rfl, Or.inl rfl⟩
  | pop =>
    cases h
    rcases s.pop_round with ⟨he, hp⟩ | ⟨i, x, rest, c, hq, hp, hc⟩
    · refine Or.inl ⟨served_of_isEmpty he, Or.inr ⟨by rw [hp], ?_⟩⟩
      -- an empty scheduler has no backlog
      apply Set.eq_empty_of_forall_notMem
      intro i hi
      exact hB i hi (isEmpty_iff.mp he i)
    · refine Or.inr ⟨i, served_of_pop hq hp, ?_⟩
      rw [hp]
      rcases hc with ⟨hpos, rfl⟩ | ⟨hz, rfl⟩
      · exact .spend hpos
      · apply Credits.Serve.renew
        intro j hj
        exact hz j (hB j hj)

theorem step_credits_le (hs : ∀ i, s.credits i ≤ wfqWeights i)
    (h : machine.step s op = some (s', o)) (i : Fin 4) : s'.credits i ≤ wfqWeights i := by
  rcases step_serves (B := ∅) (by cases op <;> simp [Backlogged]) h with
    ⟨-, hc | ⟨hc, -⟩⟩ | ⟨k, -, hk⟩
  · rw [hc]
    exact hs i
  · rw [hc]
  · exact hk.le hs i

/-- No queue ever has more credits than its weight. -/
theorem run_credits_le (h : machine.run (new : WfqScheduler α) ops = some (s, o)) (i : Fin 4) :
    s.credits i ≤ wfqWeights i := by
  refine Mealy.run_invariant (P := fun s => ∀ i, s.credits i ≤ wfqWeights i) ?_ h ?_ i
  · intro s op s' o hs hst
    exact step_credits_le hs hst
  · intro i
    exact le_rfl

/-- An interval in which the queues of `B` always wait is an interval of services. -/
theorem run_serves (hne : B.Nonempty) (h : machine.run s ops = some (t, o))
    (hB : machine.Along (Backlogged B) s ops) :
    Credits.Serves wfqWeights B s.credits o t.credits := by
  refine Mealy.run_induction_along
    (P := fun _ o t => Credits.Serves wfqWeights B s.credits o t.credits) .nil ?_ h hB
  intro _ o m op m' o' _ ih hb hs
  rcases step_serves hb hs with ⟨rfl, hc | ⟨-, he⟩⟩ | ⟨k, rfl, hk⟩
  · rw [List.append_nil, hc]
    exact ih
  · exact absurd he hne.ne_empty
  · exact ih.concat hk

/-- Over any interval in which two queues are never empty when the scheduler pops, the numbers of
items popped from them are in the proportion of their weights, up to twice the product. -/
theorem run_fair {i j : Fin 4} (hpre : machine.run (new : WfqScheduler α) pre = some (s, u))
    (hmid : machine.run s mid = some (t, v)) (hB : machine.Along (Backlogged {i, j}) s mid) :
    |(v.count i : ℤ) * wfqWeights j - v.count j * wfqWeights i| ≤
      2 * wfqWeights i * wfqWeights j := by
  apply (run_serves ⟨i, Or.inl rfl⟩ hmid hB).fair wfqWeights_pos (run_credits_le hpre)
  · exact Or.inl rfl
  · exact Or.inr rfl

/-- One pop from a scheduler with an item of each of two priorities. -/
theorem run_fair_pair : ∃ (s t : WfqScheduler ℕ) (u v : List (Fin 4)),
    machine.run new [.enqueue 7 .realTime, .enqueue 8 .normal] = some (s, u) ∧
      machine.run s [.pop] = some (t, v) ∧ machine.Along (Backlogged {0, 1}) s [.pop] ∧
      |(v.count 0 : ℤ) * wfqWeights 1 - v.count 1 * wfqWeights 0| ≤
        2 * wfqWeights 0 * wfqWeights 1 := by
  let r := machine.run (new : WfqScheduler ℕ) [.enqueue 7 .realTime, .enqueue 8 .normal]
  have hr : r = some (r.get rfl) := (Option.some_get rfl).symm
  let q := machine.run (r.get rfl).1 [.pop]
  have hq : q = some (q.get rfl) := (Option.some_get rfl).symm
  have hpop : Backlogged {0, 1} (r.get rfl).1 .pop := by
    rintro i (rfl | rfl) <;> exact List.cons_ne_nil _ _
  have hB : machine.Along (Backlogged {0, 1}) (r.get rfl).1 [.pop] :=
    Mealy.along_cons.mpr ⟨hpop, fun _ _ _ => Mealy.along_nil⟩
  exact ⟨_, _, _, _, hr, hq, hB, run_fair hr hq hB⟩

end WfqScheduler

end NotifiTransport

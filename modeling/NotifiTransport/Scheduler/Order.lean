import NotifiTransport.Scheduler.Fairness

/-! # The order of the items of a class

What a pop returns is watched together with the queue it came from. The items enqueued at a
priority are then the items popped from its queue and the items still in it, in one order: no item
is lost, returned twice or overtaken within its class.
-/

namespace NotifiTransport

/-- The items enqueued at one priority, in their order. -/
def WfqOp.enqueued {α : Type*} (i : Fin 4) (ops : List (WfqOp α)) : List α :=
  ops.filterMap fun
    | .enqueue item priority => if priority.toFin = i then some item else none
    | .pop => none

/-- The items that came from one queue, in their order. -/
def returned {α : Type*} (i : Fin 4) (o : List (Fin 4 × α)) : List α :=
  o.filterMap fun d => if d.1 = i then some d.2 else none

namespace WfqScheduler

variable {α : Type*}

/-- What an operation returns, with the queue it came from. -/
def popped (s : WfqScheduler α) : WfqOp α → List (Fin 4 × α)
  | .enqueue _ _ => []
  | .pop => s.served.flatMap fun i => s.pop.1.toList.map fun x => (i, x)

/-- The scheduler whose outputs are the items popped. -/
def deliveries : Mealy (WfqScheduler α) (WfqOp α) (Fin 4 × α) :=
  machine.watch fun s op _ => s.popped op

variable {s s' t : WfqScheduler α} {op : WfqOp α} {ops : List (WfqOp α)}
  {i : Fin 4} {u : List (Fin 4)} {o : List (Fin 4 × α)}

theorem card_items (s : WfqScheduler α) : s.items.card = s.len := by
  simp [items, len, List.finRange, Fin.sum_univ_succ]

theorem isEmpty_iff_len : s.isEmpty = true ↔ s.len = 0 := by
  rw [isEmpty_iff_items, ← card_items, Multiset.card_eq_zero]

theorem pop_eq_none_iff : s.pop.1 = none ↔ s.len = 0 := by
  rw [← isEmpty_iff_len]
  rcases s.pop_cases with ⟨he, hp⟩ | ⟨i, x, rest, c, hq, hp⟩
  · simp [hp, he]
  · have he : s.isEmpty ≠ true := by
      intro he
      rw [isEmpty_iff.mp he i] at hq
      cases hq
    simp [hp, he]

theorem len_pop (h : s.pop.1 ≠ none) : s.pop.2.len + 1 = s.len := by
  obtain ⟨x, hx⟩ := Option.ne_none_iff_exists'.mp h
  have hitems : s.items = x ::ₘ s.pop.2.items := pop_some (by rw [← hx])
  rw [← card_items, ← card_items, hitems, Multiset.card_cons]

theorem popped_of_isEmpty (he : s.isEmpty = true) : s.popped .pop = [] := by
  simp [popped, served_of_isEmpty he]

theorem popped_of_pop {x : α} {rest : List α} {c : Fin 4 → ℕ} (hq : s.queues i = x :: rest)
    (hp : s.pop = (some x, ⟨Function.update s.queues i rest, c⟩)) : s.popped .pop = [(i, x)] := by
  simp [popped, served_of_pop hq hp, hp]

/-- One operation keeps what a queue held and what was enqueued, as what was popped from it and what
it now holds. -/
theorem step_queues (h : machine.step s op = some (s', u)) (i : Fin 4) :
    s.queues i ++ WfqOp.enqueued i [op] = returned i (s.popped op) ++ s'.queues i := by
  cases op with
  | enqueue item priority =>
    cases h
    by_cases hi : priority.toFin = i
    · subst hi
      simp [WfqOp.enqueued, returned, popped, enqueue]
    · simp [WfqOp.enqueued, returned, popped, enqueue, hi, Function.update_of_ne (Ne.symm hi)]
  | pop =>
    cases h
    rcases s.pop_cases with ⟨he, hp⟩ | ⟨j, x, rest, c, hq, hp⟩
    · rw [popped_of_isEmpty he, hp]
      simp [WfqOp.enqueued, returned]
    · rw [popped_of_pop hq hp, hp]
      by_cases hi : j = i
      · subst hi
        simp [WfqOp.enqueued, returned, hq]
      · simp [WfqOp.enqueued, returned, hi, Function.update_of_ne (Ne.symm hi)]

theorem enqueued_append (ops ops' : List (WfqOp α)) :
    WfqOp.enqueued i (ops ++ ops') = WfqOp.enqueued i ops ++ WfqOp.enqueued i ops' :=
  List.filterMap_append

theorem returned_append (o o' : List (Fin 4 × α)) :
    returned i (o ++ o') = returned i o ++ returned i o' :=
  List.filterMap_append

/-- Over a run, a queue gives what it held and what was enqueued, in that order. -/
theorem run_queues (h : deliveries.run s ops = some (t, o)) (i : Fin 4) :
    s.queues i ++ WfqOp.enqueued i ops = returned i o ++ t.queues i := by
  refine Mealy.run_induction (M := deliveries)
    (P := fun ops o t => s.queues i ++ WfqOp.enqueued i ops = returned i o ++ t.queues i) ?_ ?_ h
  · simp [WfqOp.enqueued, returned]
  · intro ops o m op m' o' _ ih hs
    obtain ⟨u, hm, rfl⟩ := Mealy.step_watch.mp hs
    calc s.queues i ++ WfqOp.enqueued i (ops ++ [op])
        = s.queues i ++ WfqOp.enqueued i ops ++ WfqOp.enqueued i [op] := by
          rw [enqueued_append, List.append_assoc]
      _ = returned i o ++ (m.queues i ++ WfqOp.enqueued i [op]) := by
          rw [ih, List.append_assoc]
      _ = returned i (o ++ m.popped op) ++ m'.queues i := by
          rw [step_queues hm, returned_append, List.append_assoc]

/-- Each class is a queue of its own over every run, and a pop returns an item whenever there is
one, with any credits. -/
theorem run_fifo (h : deliveries.run (new : WfqScheduler α) ops = some (s, o)) :
    (∀ p : MessagePriority,
      WfqOp.enqueued p.toFin ops = returned p.toFin o ++ s.queues p.toFin) ∧
    ∀ credits : Fin 4 → ℕ,
      ((pop ⟨s.queues, credits⟩).1 = none ↔ (⟨s.queues, credits⟩ : WfqScheduler α).len = 0) ∧
      ((pop ⟨s.queues, credits⟩).1 ≠ none →
        (pop ⟨s.queues, credits⟩).2.len + 1 = (⟨s.queues, credits⟩ : WfqScheduler α).len) := by
  constructor
  · intro p
    exact run_queues h p.toFin
  · intro credits
    constructor
    · exact pop_eq_none_iff
    · exact len_pop

/-- Items of two classes, one of them popped before the last is enqueued. -/
theorem run_fifo_mixed : ∃ (s : WfqScheduler ℕ) (o : List (Fin 4 × ℕ)),
    deliveries.run new [.enqueue 5 .normal, .enqueue 6 .realTime, .pop, .enqueue 7 .normal, .pop] =
      some (s, o) ∧
    (∀ p : MessagePriority, WfqOp.enqueued p.toFin
      [.enqueue 5 .normal, .enqueue 6 .realTime, .pop, .enqueue 7 .normal, .pop] =
        returned p.toFin o ++ s.queues p.toFin) ∧
    ∀ credits : Fin 4 → ℕ,
      ((pop ⟨s.queues, credits⟩).1 = none ↔ (⟨s.queues, credits⟩ : WfqScheduler ℕ).len = 0) ∧
      ((pop ⟨s.queues, credits⟩).1 ≠ none →
        (pop ⟨s.queues, credits⟩).2.len + 1 = (⟨s.queues, credits⟩ : WfqScheduler ℕ).len) :=
  ⟨_, _, rfl, run_fifo rfl⟩

end WfqScheduler

end NotifiTransport

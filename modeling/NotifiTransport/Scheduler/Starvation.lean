import NotifiTransport.Lib.Turns
import NotifiTransport.Scheduler.Order

/-! # No class starves

A pop is a turn by priority. The turns that can pass a waiting class over are at most the credits
of the other classes in this round and those of the classes before it in the next round, whatever is
enqueued meanwhile.
-/

namespace NotifiTransport

/-- The number of pops of a sequence of operations. -/
def WfqOp.pops {α : Type*} (ops : List (WfqOp α)) : ℕ :=
  ops.countP fun
    | .pop => true
    | .enqueue _ _ => false

/-- The pops that can pass a waiting class over before it is served. -/
def waitBound (i : Fin 4) : ℕ := (15 - wfqWeights i) + ∑ j with j < i, wfqWeights j

theorem waitBound_eq : waitBound = ![7, 19, 25, 28] := by
  funext i
  revert i
  decide

theorem bound_wfqWeights (i : Fin 4) : Turns.bound wfqWeights i = waitBound i := by
  revert i
  decide

/-- What `find?` returns in a list of all indices is the first index that fits. -/
theorem find?_finRange_eq_some {n : ℕ} {p : Fin n → Bool} {i : Fin n}
    (h : (List.finRange n).find? p = some i) : p i = true ∧ ∀ j < i, p j = false := by
  obtain ⟨hp, m, hm, hi, hfirst⟩ := List.find?_eq_some_iff_getElem.mp h
  constructor
  · exact hp
  · intro j hj
    have hjm : j.val < m := by
      rw [List.getElem_finRange] at hi
      have hval : m = i.val := congrArg Fin.val hi
      rw [hval]
      exact hj
    simpa using hfirst j.val hjm

namespace WfqScheduler

variable {α : Type*} {s s' t : WfqScheduler α} {op : WfqOp α} {ops pre : List (WfqOp α)} {i : Fin 4}
  {u : List (Fin 4)} {o o' : List (Fin 4 × α)}

/-- A pop that finds an item is a turn among the queues with items. -/
theorem pop_turn (he : s.isEmpty = false) :
    ∃ (k : Fin 4) (x : α), s.popped .pop = [(k, x)] ∧
      Turns.Turn wfqWeights {j | s.queues j ≠ []} s.credits k s.pop.2.credits := by
  rcases hf : (List.finRange 4).find? fun i =>
    decide (0 < s.credits i) && !(s.queues i).isEmpty with _ | k
  · have hzero : ∀ j ∈ {j | s.queues j ≠ []}, s.credits j = 0 := by
      intro j hj
      have hn := List.find?_eq_none.mp hf j (List.mem_finRange j)
      have hq : (s.queues j).isEmpty = false := by simpa using hj
      simpa [hq] using hn
    rcases hg : (List.finRange 4).find? fun i => !(s.queues i).isEmpty with _ | k
    · -- then nothing waits at all
      have hall : s.isEmpty = true := by
        rw [isEmpty_iff]
        intro i
        simpa using List.find?_eq_none.mp hg i (List.mem_finRange i)
      rw [hall] at he
      cases he
    · obtain ⟨hk, hfirst⟩ := find?_finRange_eq_some hg
      obtain ⟨x, rest, hq⟩ := List.exists_cons_of_ne_nil (l := s.queues k) (by simpa using hk)
      have hp : s.pop = (some x, ⟨Function.update s.queues k rest,
          Function.update wfqWeights k (wfqWeights k - 1)⟩) := by
        simp [pop, hf, hg, serve, hq]
      refine ⟨k, x, popped_of_pop hq hp, ?_⟩
      rw [hp]
      apply Turns.Turn.renew hzero
      · intro j hj
        by_contra hlt
        have hq' := hfirst j (not_le.mp hlt)
        rw [Set.mem_ofPred_eq] at hj
        simp [hj] at hq'
      · have hpos := wfqWeights_pos k
        simp only [Function.update_self]
        omega
      · intro j hj
        exact Function.update_of_ne hj _ _
  · obtain ⟨hk, hfirst⟩ := find?_finRange_eq_some hf
    simp only [Bool.and_eq_true, Bool.not_eq_true', List.isEmpty_eq_false_iff,
      decide_eq_true_eq] at hk
    obtain ⟨x, rest, hq⟩ := List.exists_cons_of_ne_nil hk.2
    have hp : s.pop = (some x, ⟨Function.update s.queues k rest,
        Function.update s.credits k (s.credits k - 1)⟩) := by
      simp [pop, hf, serve, hq]
    refine ⟨k, x, popped_of_pop hq hp, ?_⟩
    rw [hp]
    apply Turns.Turn.spend
    · intro j hj hlt
      have hn := hfirst j hlt
      have hq' : (s.queues j).isEmpty = false := by simpa using hj
      simpa [hq'] using hn
    · simp only [Function.update_self]
      omega
    · intro j hj
      exact Function.update_of_ne hj _ _

/-- How far the pops of a run can be ahead of the services of a queue that still has one of the
items it began with. -/
def OnTime (i : Fin 4) (s : WfqScheduler α) (ops : List (WfqOp α)) (o : List (Fin 4 × α))
    (t : WfqScheduler α) : Prop :=
  (returned i o).length < (s.queues i).length →
    WfqOp.pops ops + Turns.delay wfqWeights t.credits i ≤
      (returned i o).length * (waitBound i + 1) + waitBound i

theorem pops_append (ops ops' : List (WfqOp α)) :
    WfqOp.pops (ops ++ ops') = WfqOp.pops ops + WfqOp.pops ops' :=
  List.countP_append

theorem delay_le_waitBound (hc : ∀ j, s.credits j ≤ wfqWeights j) (i : Fin 4) :
    Turns.delay wfqWeights s.credits i ≤ waitBound i :=
  bound_wfqWeights i ▸ Turns.delay_le hc i

/-- A run keeps a queue on time: a pop that passes it over uses up its delay, a pop that serves it
gives it a whole delay more. -/
theorem run_onTime (hs : ∀ j, s.credits j ≤ wfqWeights j) (h : deliveries.run s ops = some (t, o))
    (i : Fin 4) : (∀ j, t.credits j ≤ wfqWeights j) ∧ OnTime i s ops o t := by
  refine Mealy.run_induction (M := deliveries)
    (P := fun ops o t => (∀ j, t.credits j ≤ wfqWeights j) ∧ OnTime i s ops o t) ?_ ?_ h
  · constructor
    · exact hs
    · intro _
      simpa [returned, WfqOp.pops] using delay_le_waitBound hs i
  · rintro ops o m op m' o' hr ⟨hm, ih⟩ hst
    obtain ⟨u, hstep, rfl⟩ := Mealy.step_watch.mp hst
    have hm' : ∀ j, m'.credits j ≤ wfqWeights j := step_credits_le hm hstep
    constructor
    · exact hm'
    intro hlt
    rw [returned_append, List.length_append] at hlt
    rw [pops_append, returned_append, List.length_append]
    have hle := ih (by omega)
    cases op with
    | enqueue item priority =>
      cases hstep
      simpa [popped, returned, WfqOp.pops, enqueue] using hle
    | pop =>
      cases hstep
      -- the queue has not yet given all it held at first
      have hwait : m.queues i ≠ [] := by
        intro hnil
        have hq := congrArg List.length (run_queues hr i)
        rw [hnil, List.length_append, List.append_nil] at hq
        omega
      have he : m.isEmpty = false := by
        rw [Bool.eq_false_iff, ne_eq, isEmpty_iff]
        intro hall
        exact hwait (hall i)
      obtain ⟨k, x, hx, hturn⟩ := pop_turn he
      have hone : WfqOp.pops [(.pop : WfqOp α)] = 1 := rfl
      rw [hx, hone]
      by_cases hk : k = i
      · subst hk
        have hlen : (returned k [(k, x)]).length = 1 := by simp [returned]
        have hd := delay_le_waitBound hm' k
        rw [hlen, add_mul, one_mul]
        omega
      · have hlen : (returned i [(k, x)]).length = 0 := by simp [returned, hk]
        have hd := hturn.delay_lt hwait hk (wfqWeights_pos i)
        rw [hlen, add_zero]
        omega

/-- After enough pops a queue has given more of the items that it held. -/
theorem run_returned_lt (hs : ∀ j, s.credits j ≤ wfqWeights j)
    (h : deliveries.run s ops = some (t, o)) {k : ℕ} (hk : k < (s.queues i).length)
    (hpops : (k + 1) * (waitBound i + 1) ≤ WfqOp.pops ops) : k < (returned i o).length := by
  by_contra hle
  have hon := (run_onTime hs h i).2 (by omega)
  have hmul : (returned i o).length * (waitBound i + 1) ≤ k * (waitBound i + 1) :=
    Nat.mul_le_mul_right _ (by omega)
  rw [add_mul, one_mul] at hpops
  omega

/-- From every reachable state and whatever is enqueued later, a class that waits is served within
its bound, and an item within as many bounds as there are items of its class up to it. -/
theorem run_no_starvation (hpre : machine.run (new : WfqScheduler α) pre = some (s, u))
    (h : deliveries.run s ops = some (t, o)) (i : Fin 4) :
    waitBound = ![7, 19, 25, 28] ∧
    (s.queues i ≠ [] → waitBound i + 1 ≤ WfqOp.pops ops → i ∈ o.map Prod.fst) ∧
    ∀ ahead x behind, s.queues i = ahead ++ x :: behind →
      (ahead.length + 1) * (waitBound i + 1) ≤ WfqOp.pops ops →
        ahead ++ [x] <+: returned i o := by
  have hs := run_credits_le hpre
  refine ⟨waitBound_eq, ?_, ?_⟩
  · intro hne hpops
    have hlt := run_returned_lt (i := i) hs h (List.length_pos_of_ne_nil hne) (by omega)
    obtain ⟨x, hx⟩ := List.exists_mem_of_length_pos hlt
    obtain ⟨⟨j, y⟩, hd, hy⟩ := List.mem_filterMap.mp hx
    by_cases hj : j = i
    · exact List.mem_map.mpr ⟨(j, y), hd, hj⟩
    · simp [hj] at hy
  · intro ahead x behind hq hpops
    have hlt := run_returned_lt (i := i) hs h (k := ahead.length) (by simp [hq]) hpops
    have hfifo := run_queues h i
    have hahead : ahead ++ [x] <+: s.queues i ++ WfqOp.enqueued i ops := by
      rw [hq]
      exact ⟨behind ++ WfqOp.enqueued i ops, by simp⟩
    have hreturned : returned i o <+: s.queues i ++ WfqOp.enqueued i ops := by
      rw [hfifo]
      exact List.prefix_append _ _
    apply List.prefix_of_prefix_length_le hahead hreturned
    rw [List.length_append, List.length_singleton]
    exact hlt

/-- Two items of the last class wait with items of two other classes, and an item of the first class
comes before every pop. -/
def waitingFour : List (WfqOp ℕ) :=
  [.enqueue 1 .bulk, .enqueue 2 .bulk, .enqueue 3 .normal, .enqueue 4 .realTime]

def crowded : List (WfqOp ℕ) := (List.replicate 58 [.enqueue 5 .realTime, .pop]).flatten

theorem run_no_starvation_crowded : ∃ (s t : WfqScheduler ℕ) (u : List (Fin 4))
    (o : List (Fin 4 × ℕ)),
    machine.run new waitingFour = some (s, u) ∧ deliveries.run s crowded = some (t, o) ∧
      1 ∈ o.map Prod.fst ∧ [1, 2] <+: returned 3 o := by
  let r := machine.run (new : WfqScheduler ℕ) waitingFour
  have hr : r = some (r.get rfl) := (Option.some_get rfl).symm
  let q := deliveries.run (r.get rfl).1 crowded
  have hq : q.isSome = true := by decide +kernel
  obtain ⟨⟨t, o⟩, hq⟩ := Option.isSome_iff_exists.mp hq
  have hpops : WfqOp.pops crowded = 58 := by decide
  refine ⟨_, t, _, o, hr, hq, ?_, ?_⟩
  · exact (run_no_starvation hr hq 1).2.1 (List.cons_ne_nil 3 []) (hpops ▸ by decide)
  · exact (run_no_starvation hr hq 3).2.2 [1] 2 [] rfl (hpops ▸ by decide)

end WfqScheduler

end NotifiTransport

import NotifiTransport.Client.LoopRun

/-! # The history of `pending`

A call of `request` enters its id in `pending`. The entry goes when the response is dispatched, when
the call gives up, or when the loop drops all entries; a later call with the same id replaces it. So
what is pending is known from the steps of the run.
-/

namespace NotifiTransport

/-- The effect takes the entry of this id out of `pending`. -/
def Effect.releases (id : UInt32) : Effect → Bool
  | .clearPending => true
  | .dispatch f => f.kind = .message ∧ 0 < f.id ∧ f.id = id
  | _ => false

namespace WsClient

variable {snow : Snow} {pc : Postcard} {cfg : WsClientConfig} {parses : Text → Bool}
  {w w' : WsClient snow} {e : Event} {es : List Event} {tr o : List Output} {id : UInt32}

/-- The step takes the entry of this id out of `pending`. -/
def Releases (pc : Postcard) (cfg : WsClientConfig) (id : UInt32) (w : WsClient snow) :
    Event → Prop
  | .loop i => ∃ r, w.loop.step pc cfg w.now i = some r ∧ ∃ x ∈ r.2, x.releases id
  | .remove j => ∃ r, w.requests[j]? = some r ∧ r.id = id
  | _ => False

/-- A call has entered the id in `pending`, and no step since has taken it out. -/
def Outstanding (pc : Postcard) (cfg : WsClientConfig) (parses : Text → Bool) (snow : Snow)
    (id : UInt32) (es : List Event) : Prop :=
  ∃ pre j post m m' u v r, es = pre ++ [.register j] ++ post ∧
    (machine pc cfg parses snow).run new pre = some (m, u) ∧
    m.requests[j]? = some r ∧ r.id = id ∧
    (machine pc cfg parses snow).run new (pre ++ [.register j]) = some (m', v) ∧
    (machine pc cfg parses snow).Along (fun n e => ¬ Releases pc cfg id n e) m' post

theorem mem_removePending (w : WsClient snow) (k : UInt32) :
    id ∈ (w.removePending k).pending ↔ id ≠ k ∧ id ∈ w.pending := by
  unfold removePending
  split
  · next hk =>
    refine ⟨fun hm => ⟨?_, hm⟩, And.right⟩
    rintro rfl
    exact AList.lookup_eq_none.mp hk hm
  · exact AList.mem_erase

theorem mem_register {i : ℕ} {r : Request} (w : WsClient snow) :
    id ∈ (w.register i r).pending ↔ id = r.id ∨ id ∈ w.pending := by
  rw [register, AList.mem_insert, mem_removePending]
  tauto

theorem mem_dispatchFrame (w : WsClient snow) (f : Frame) :
    id ∈ (w.dispatchFrame cfg f).1.pending ↔
      id ∈ w.pending ∧ ¬ (Effect.dispatch f).releases id := by
  unfold dispatchFrame
  cases hk : f.kind with
  | message =>
    dsimp only
    split
    · next hpos =>
      have hf : (Effect.dispatch f).releases id = true ↔ f.id = id := by
        simp [Effect.releases, hk, hpos]
      rw [hf]
      split
      · next hn =>
        refine ⟨fun hm => ⟨hm, ?_⟩, And.left⟩
        rintro rfl
        exact AList.lookup_eq_none.mp hn hm
      · rw [AList.mem_erase, eq_comm (a := f.id), and_comm]
    · next hpos => simp [hpos, handleEvent, Effect.releases]
  | ping =>
    obtain ⟨q, hq, -⟩ := w.trySend_eq cfg (.send ⟨0, .pong, []⟩ .realTime)
    simp [hq, hk, Effect.releases]
  | event | pong => simp [hk, handleEvent, Effect.releases]

theorem mem_react (w : WsClient snow) (x : Effect) :
    id ∈ (w.react cfg x).1.pending ↔ id ∈ w.pending ∧ ¬ x.releases id := by
  cases x with
  | dispatch f => exact mem_dispatchFrame w f
  | clearPending => simp [react, clearPending, Effect.releases, AList.notMem_empty]
  | _ => simp [react, Effect.releases]

theorem mem_reactAll (w : WsClient snow) (xs : List Effect) :
    id ∈ (w.reactAll cfg xs).1.pending ↔ id ∈ w.pending ∧ ¬ ∃ x ∈ xs, x.releases id := by
  induction xs generalizing w with
  | nil => simp [reactAll]
  | cons x xs ih =>
    rw [reactAll, ih, mem_react, List.exists_mem_cons_iff, not_or, and_assoc]

theorem pending_setStage (w : WsClient snow) (j : ℕ) (s : Stage) :
    (w.setStage j s).pending = w.pending := rfl

theorem mem_stepRequest {j : ℕ} {r : Request} (h : w.stepRequest cfg j r e = some (w', o)) :
    id ∈ w'.pending ↔
      (∃ k, e = .register k) ∧ r.id = id ∨
        id ∈ w.pending ∧ ¬ ((∃ k, e = .remove k) ∧ r.id = id) := by
  unfold stepRequest at h
  split at h
  · split at h <;> cases h
    rw [mem_register]
    simp [eq_comm]
  all_goals
    repeat' split at h
    all_goals cases h
    all_goals
      simp [pending_setStage, mem_removePending, and_comm, eq_comm (a := id)]

/-- An id is pending after a step if the step registers it, or if it was pending and stays so. -/
theorem mem_step (h : w.step pc cfg parses e = some (w', o)) : id ∈ w'.pending ↔
    (∃ j r, e = .register j ∧ w.requests[j]? = some r ∧ r.id = id) ∨
      id ∈ w.pending ∧ ¬ Releases pc cfg id w e := by
  cases e <;> simp only [step] at h
  case loop i =>
    obtain ⟨-, r, hr, rfl, -⟩ := stepLoop_eq_some.mp h
    obtain ⟨q, hq, -⟩ := w.resume_eq i r.1
    rw [mem_reactAll, hq]
    simp [Releases, hr]
  case register | permit | enqueue | refuse | resolve | expire | remove | drop =>
    split at h
    · next r hr =>
      rw [mem_stepRequest h]
      simp [Releases, hr]
    · cases h
  case setEndpoint url =>
    cases h
    unfold setEndpoint
    split <;> simp [Releases]
  case notify k =>
    split at h <;> cases h
    next c _ =>
      obtain ⟨q, hq, -⟩ := trySend_eq cfg { w with calls := w.calls.eraseIdx k } c
      simp [hq, Releases]
  case reconnect | wake | sendEvent =>
    cases h
    rw [trySend]
    split <;> simp [Releases]
  all_goals
    cases h
    simp [Releases, clearEndpoint, setAutoReconnect, draw]

theorem Outstanding.concat (h : Outstanding pc cfg parses snow id es)
    (hr : (machine pc cfg parses snow).run new es = some (w, tr))
    (he : ¬ Releases pc cfg id w e) : Outstanding pc cfg parses snow id (es ++ [e]) := by
  obtain ⟨pre, j, post, m, m', u, v, r, rfl, hpre, hj, hid, hm', hG⟩ := h
  obtain ⟨b, hb, rfl⟩ := Mealy.run_rest hr hm'
  exact ⟨pre, j, post ++ [e], m, m', u, v, r, List.append_assoc _ _ _, hpre, hj, hid, hm',
    hG.concat hb he⟩

/-- An id is pending exactly if a call has registered it and nothing has taken it out since. -/
theorem run_outstanding_iff (h : (machine pc cfg parses snow).run new es = some (w, tr)) :
    id ∈ w.pending ↔ Outstanding pc cfg parses snow id es := by
  constructor
  · refine Mealy.run_induction
      (P := fun es _ w => id ∈ w.pending → Outstanding pc cfg parses snow id es) ?_ ?_ h
    · intro hm
      exact absurd hm (AList.notMem_empty id)
    · intro is tr m e m' o hr ih hs hm
      rcases (mem_step hs).mp hm with ⟨j, r, rfl, hj, hid⟩ | ⟨hm, he⟩
      · exact ⟨is, j, [], m, m', tr, tr ++ o, r, (List.append_nil _).symm, hr, hj, hid,
          Mealy.run_concat.mpr ⟨m, tr, o, hr, hs, rfl⟩, Mealy.along_nil⟩
      · exact (ih hm).concat hr he
  · rintro ⟨pre, j, post, m, m', u, v, r, rfl, hpre, hj, hid, hm', hG⟩
    obtain ⟨b, hb, rfl⟩ := Mealy.run_rest h hm'
    obtain ⟨n, v', o, hn, hs, -⟩ := Mealy.run_concat.mp hm'
    rw [hpre] at hn
    cases hn
    refine Mealy.run_induction_along (P := fun _ _ w => id ∈ w.pending) ?_ ?_ hb hG
    · have hs : m.step pc cfg parses (.register j) = some (m', o) := hs
      exact (mem_step hs).mpr (Or.inl ⟨j, r, rfl, hj, hid⟩)
    · intro is tr n e n' o _ hm he hs'
      exact (mem_step hs').mpr (Or.inr ⟨hm, he⟩)

theorem run_pending_empty_iff (h : (machine pc cfg parses snow).run new es = some (w, tr)) :
    w.pending = ∅ ↔ ∀ id, ¬ Outstanding pc cfg parses snow id es := by
  constructor
  · intro he id ho
    have hm := (run_outstanding_iff h).mpr ho
    rw [he] at hm
    exact AList.notMem_empty id hm
  · intro hn
    refine AList.ext (List.eq_nil_iff_forall_not_mem.mpr ?_)
    intro x hx
    exact hn x.1 ((run_outstanding_iff h).mp (AList.mem_keys.mpr (List.mem_keys_of_mem hx)))

end WsClient

end NotifiTransport

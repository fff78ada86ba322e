import NotifiTransport.Client.Steps
import NotifiTransport.Client.WsClient

/-! # The state shared by the loop and the callers

The operations of `WsClient` on each part of the shared state, and the one way in which the
loop takes part in a run.
-/

namespace NotifiTransport

/-- A call that sends `EndpointChanged` or `Reconnect`. -/
def Event.isControlCall : Event → Bool
  | .setEndpoint _ | .clearEndpoint | .setAutoReconnect _ | .reconnect => true
  | _ => false

namespace WsClient

variable {snow : Snow} {pc : Postcard} {cfg : WsClientConfig} {parses : Text → Bool}
  {w w' : WsClient snow} {e : Event} {o : List Output}

section Frames

variable (cfg) (w)

theorem trySend_eq (c : ClientCmd) :
    ∃ q, w.trySend cfg c = { w with queue := q } ∧ (q = w.queue ∨ q = w.queue ++ [c]) := by
  unfold trySend
  split
  · exact ⟨_, rfl, Or.inr rfl⟩
  · exact ⟨_, rfl, Or.inl rfl⟩

theorem removePending_eq (id : UInt32) :
    ∃ q p, w.removePending id = { w with requests := q, pending := p } := by
  unfold removePending
  split <;> exact ⟨_, _, rfl⟩

/-- The frame of an effect of the loop: the queue may grow by a `Pong`. -/
theorem react_eq (e : Effect) : ∃ q rs p,
    (w.react cfg e).1 = { w with queue := q, requests := rs, pending := p } ∧
      (q = w.queue ∨ q = w.queue ++ [.send ⟨0, .pong, []⟩ .realTime]) := by
  cases e with
  | dispatch f =>
    simp only [react, dispatchFrame]
    split
    · split
      · split <;> exact ⟨_, _, _, rfl, Or.inl rfl⟩
      · exact ⟨_, _, _, rfl, Or.inl rfl⟩
    · exact ⟨_, _, _, rfl, Or.inl rfl⟩
    · exact ⟨_, _, _, rfl, Or.inl rfl⟩
    · obtain ⟨q, hq, h⟩ := w.trySend_eq cfg (.send ⟨0, .pong, []⟩ .realTime)
      exact ⟨q, _, _, hq, h⟩
  | clearPending => exact ⟨_, _, _, rfl, Or.inl rfl⟩
  | _ => exact ⟨_, _, _, rfl, Or.inl rfl⟩

theorem reactAll_eq (es : List Effect) : ∃ q rs p,
    (w.reactAll cfg es).1 = { w with queue := q, requests := rs, pending := p } ∧
      ∃ pongs : ℕ, q = w.queue ++ List.replicate pongs (.send ⟨0, .pong, []⟩ .realTime) := by
  induction es generalizing w with
  | nil => exact ⟨_, _, _, rfl, 0, by simp⟩
  | cons e es ih =>
    obtain ⟨q, rs, p, he, hq⟩ := w.react_eq cfg e
    obtain ⟨q', rs', p', he', n, hn⟩ := ih (w.react cfg e).1
    rw [he] at he' hn
    refine ⟨q', rs', p', by rw [← he', ← he]; rfl, ?_⟩
    rcases hq with rfl | rfl
    · exact ⟨n, hn⟩
    · exact ⟨n + 1, by simp [hn, List.replicate_succ]⟩

end Frames

theorem take_eq (w : WsClient snow) (i : Input) :
    ∃ q, w.take i = { w with queue := q } ∧ (q = w.queue ∨ ∃ c, i = .cmd c ∧ q = w.queue.tail) := by
  cases i with
  | cmd c => exact ⟨_, rfl, Or.inr ⟨c, rfl, rfl⟩⟩
  | _ => exact ⟨_, rfl, Or.inl rfl⟩

theorem resume_eq (w : WsClient snow) (i : Input) (l : Loop snow) :
    ∃ q, w.resume i l = { w with loop := l, queue := q, ready := !q.isEmpty } ∧
      (q = w.queue ∨ ∃ c, i = .cmd c ∧ q = w.queue.tail) := by
  obtain ⟨q, hw, hq⟩ := w.take_eq i
  exact ⟨q, by rw [resume, hw], hq⟩

theorem stepLoop_eq_some {i : Input} : w.stepLoop pc cfg i = some (w', o) ↔
    w.offers i ∧ ∃ r, w.loop.step pc cfg w.now i = some r ∧
      w' = (reactAll cfg (w.resume i r.1) r.2).1 ∧
      o = .loop (.resumed i) :: (reactAll cfg (w.resume i r.1) r.2).2 := by
  unfold stepLoop
  split
  · next h => simp [h, eq_comm]
  · next h => simp [h]

/-- The loop and the endpoint stay, and no command is sent that is meant for the connection. -/
structure Quiet (w w' : WsClient snow) : Prop where
  loop : w'.loop = w.loop
  url : w'.url = w.url
  calls : w'.calls = w.calls
  queue : ∃ sent, w'.queue = w.queue ++ sent ∧ ∀ c ∈ sent, ¬ Loop.isControl c

theorem Quiet.of_eq (hl : w'.loop = w.loop) (hu : w'.url = w.url) (hc : w'.calls = w.calls)
    (hq : w'.queue = w.queue) : Quiet w w' :=
  ⟨hl, hu, hc, [], by simp [hq], by simp⟩

theorem quiet_trySend {c : ClientCmd} (hc : ¬ Loop.isControl c) : Quiet w (w.trySend cfg c) := by
  obtain ⟨q, hw, rfl | rfl⟩ := w.trySend_eq cfg c <;> rw [hw]
  · exact .of_eq rfl rfl rfl rfl
  · exact ⟨rfl, rfl, rfl, [c], rfl, by simpa using hc⟩

theorem quiet_stepRequest {i : ℕ} {r : Request} (h : w.stepRequest cfg i r e = some (w', o)) :
    Quiet w w' := by
  unfold stepRequest at h
  split at h
  · -- register
    split at h <;> cases h
    obtain ⟨q, p, hw⟩ := w.removePending_eq r.id
    unfold register
    rw [hw]
    exact .of_eq rfl rfl rfl rfl
  · -- permit
    split at h <;> cases h
    exact .of_eq rfl rfl rfl rfl
  · -- enqueue
    split at h <;> cases h
    exact ⟨rfl, rfl, rfl, [_], rfl, by simp [Loop.isControl]⟩
  · -- refuse
    split at h <;> cases h
    exact .of_eq rfl rfl rfl rfl
  · -- resolve
    split at h <;> cases h <;> exact .of_eq rfl rfl rfl rfl
  · -- expire
    split at h
    · split at h <;> cases h
      exact .of_eq rfl rfl rfl rfl
    · cases h
  · -- remove
    split at h <;> cases h
    obtain ⟨q, p, hw⟩ := w.removePending_eq r.id
    rw [hw]
    exact .of_eq rfl rfl rfl rfl
  · -- drop
    split at h <;> cases h <;> exact .of_eq rfl rfl rfl rfl
  · cases h

/-- A step of the client by what it does to the loop and to the commands that are meant for
the connection. -/
theorem step_shared (h : w.step pc cfg parses e = some (w', o)) :
    (∃ i, e = .loop i ∧ w.stepLoop pc cfg i = some (w', o)) ∨
      (∃ k c, e = .notify k ∧ w.calls[k]? = some c ∧
        w' = trySend cfg { w with calls := w.calls.eraseIdx k } c) ∨
      (e.isControlCall ∧ w'.loop = w.loop ∧ w.queue <+: w'.queue ∧
        (w'.url = w.url ∧ w.calls <+: w'.calls ∨ .endpointChanged ∈ w'.calls) ∧
        ∀ c ∈ w'.calls, c ∈ w.calls ∨ Loop.isControl c) ∨
      (∀ k, e ≠ .notify k) ∧ (∀ i, e ≠ .loop i) ∧ Quiet w w' := by
  have hsent : ∀ {c : ClientCmd}, Loop.isControl c → ∀ c' ∈ w.calls ++ [c],
      c' ∈ w.calls ∨ Loop.isControl c' := by
    intro c hc c' hm
    rcases List.mem_append.mp hm with hm | hm
    · exact Or.inl hm
    · exact Or.inr (List.mem_singleton.mp hm ▸ hc)
  cases e <;> simp only [step] at h
  case loop i => exact Or.inl ⟨i, rfl, h⟩
  case register | permit | enqueue | refuse | resolve | expire | remove | drop =>
    split at h
    · exact Or.inr (Or.inr (Or.inr ⟨by simp, by simp, quiet_stepRequest h⟩))
    · cases h
  all_goals refine Or.inr ?_
  case notify k =>
    split at h <;> cases h
    next c hc => exact Or.inl ⟨k, c, rfl, hc, rfl⟩
  all_goals refine Or.inr ?_
  case setEndpoint url =>
    cases h
    unfold setEndpoint
    split
    · exact Or.inl ⟨rfl, rfl, List.prefix_refl _, Or.inr (by simp), hsent rfl⟩
    · exact Or.inl ⟨rfl, rfl, List.prefix_refl _, Or.inl ⟨rfl, List.prefix_refl _⟩,
        fun _ => Or.inl⟩
  case clearEndpoint =>
    cases h
    exact Or.inl ⟨rfl, rfl, List.prefix_refl _, Or.inr (by simp [clearEndpoint]), hsent rfl⟩
  case setAutoReconnect enabled =>
    cases h
    unfold setAutoReconnect
    dsimp only
    split
    · exact Or.inl ⟨rfl, rfl, List.prefix_refl _, Or.inl ⟨rfl, List.prefix_append _ _⟩, hsent rfl⟩
    · exact Or.inl ⟨rfl, rfl, List.prefix_refl _, Or.inl ⟨rfl, List.prefix_refl _⟩,
        fun _ => Or.inl⟩
  case reconnect =>
    cases h
    obtain ⟨q, hw, hq⟩ := w.trySend_eq cfg .reconnect
    rw [hw]
    refine Or.inl ⟨rfl, rfl, ?_, Or.inl ⟨rfl, List.prefix_refl _⟩, fun _ => Or.inl⟩
    rcases hq with rfl | rfl
    · exact List.prefix_refl _
    · exact List.prefix_append _ _
  all_goals refine Or.inr ⟨by simp, by simp, ?_⟩
  case wake | sendEvent =>
    cases h
    exact quiet_trySend (by simp [Loop.isControl])
  all_goals
    cases h
    exact .of_eq rfl rfl rfl rfl

/-- What a step of the loop does to the shared state. -/
theorem stepLoop_shared {i : Input} (h : w.stepLoop pc cfg i = some (w', o)) :
    w.offers i ∧ (∃ r, w.loop.step pc cfg w.now i = some r ∧ w'.loop = r.1) ∧
      w'.url = w.url ∧ w'.calls = w.calls ∧
      ∃ sent, w'.queue = (w.take i).queue ++ sent ∧ ∀ c ∈ sent, ¬ Loop.isControl c := by
  obtain ⟨ho, r, hr, rfl, -⟩ := stepLoop_eq_some.mp h
  obtain ⟨q, hq, -⟩ := w.resume_eq i r.1
  obtain ⟨q', rs, p, hw, n, hn⟩ := reactAll_eq cfg (w.resume i r.1) r.2
  rw [hw]
  refine ⟨ho, ⟨r, hr, rfl⟩, by rw [hq], by rw [hq], _, hn, ?_⟩
  intro c hc
  rw [List.eq_of_mem_replicate hc]
  simp [Loop.isControl]

end WsClient

end NotifiTransport

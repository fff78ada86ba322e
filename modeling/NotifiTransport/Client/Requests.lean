import NotifiTransport.Client.Inbound
import NotifiTransport.Client.Online
import NotifiTransport.Client.Shared

/-! # Requests and their responses

A step of the client draws an id, registers a request, delivers a response, or at most
closes and completes requests that exist. From these four cases follows the invariant that
ties every entry of `pending` to one open request, and with it the routing of responses.
-/

namespace NotifiTransport

/-- A later state of the same call. -/
def Request.Follows (r r' : Request) : Prop :=
  r'.id = r.id ∧ (r'.stage = .drawn → r.stage = .drawn) ∧
    ∀ x, r.stage = .done x → r'.stage = .done x

/-- The request that has returned. -/
def Output.completed? : Output → Option ℕ
  | .completed i _ => some i
  | _ => none

theorem Request.Follows.refl (r : Request) : r.Follows r := ⟨rfl, fun h => h, fun _ h => h⟩

theorem Request.Follows.trans {a b c : Request} (h : a.Follows b) (h' : b.Follows c) :
    a.Follows c :=
  ⟨h'.1.trans h.1, h.2.1 ∘ h'.2.1, fun x => h'.2.2 x ∘ h.2.2 x⟩

theorem Request.follows_close (r : Request) : r.Follows r.close := by
  unfold close
  split <;> exact .refl _

theorem Request.follows_answer (r : Request) (data : Bytes) : r.Follows (r.answer data) :=
  ⟨rfl, fun h => h, fun _ h => h⟩

theorem Request.follows_stage {r : Request} {s : Stage} (hd : ∀ x, r.stage ≠ .done x)
    (hs : s ≠ .drawn) : r.Follows { r with stage := s } :=
  ⟨rfl, fun h => absurd h hs, fun x h => absurd h (hd x)⟩

theorem Request.close_stage (r : Request) : r.close.stage = r.stage := by
  unfold close
  split <;> rfl

theorem Request.close_rx (r : Request) : r.close.rx = r.rx ∨ r.close.rx = .closed := by
  unfold close
  split
  · exact Or.inr rfl
  · exact Or.inl rfl

namespace MsgLoop

variable {snow : Snow} {pc : Postcard} {cfg : WsClientConfig} {now : ℕ} {m : MsgLoop snow}
  {i : Input} {r : Option (MsgLoop snow) × List Effect}

/-- A frame is dispatched by a step that does nothing else. -/
theorem step_dispatched (h : m.step pc cfg now i = some r) :
    dispatched r.2 = [] ∨ ∃ f, r.2 = [.dispatch f] := by
  rcases step_cases h with ⟨data, -, rfl⟩ | ⟨ho, -⟩
  · unfold onPacket
    dsimp only
    split
    · exact Or.inl rfl
    · next f _ =>
      cases f with
      | none => exact Or.inl rfl
      | some f => exact Or.inr ⟨f, rfl⟩
  · exact Or.inl ho

end MsgLoop

namespace Loop

variable {snow : Snow} {pc : Postcard} {cfg : WsClientConfig} {now : ℕ} {l : Loop snow}
  {i : Input} {r : Loop snow × List Effect}

theorem step_dispatched (h : l.step pc cfg now i = some r) :
    dispatched r.2 = [] ∨ ∃ f, r.2 = [.dispatch f] := by
  by_contra hne
  obtain ⟨hd, hf⟩ := not_or.mp hne
  obtain ⟨f, hm⟩ := List.exists_mem_of_ne_nil _ hd
  obtain ⟨e, he, hef⟩ := List.mem_filterMap.mp hm
  obtain rfl : e = .dispatch f := by cases e <;> cases hef; rfl
  obtain ⟨url, m, hp⟩ := step_emits h _ he
  simp only [step, hp] at h
  obtain ⟨s, hs, rfl⟩ := Option.map_eq_some_iff.mp h
  exact (MsgLoop.step_dispatched hs).elim hd hf

end Loop

namespace WsClient

variable {snow : Snow} {pc : Postcard} {cfg : WsClientConfig} {parses : Text → Bool}
  {w w' w'' : WsClient snow} {e : Event} {o : List Output}

theorem getElem?_modify (w : WsClient snow) (i j : ℕ) (f : Request → Request) :
    (w.modify i f).requests[j]? = if i = j then w.requests[j]?.map f else w.requests[j]? := by
  unfold modify
  dsimp only
  rw [List.getElem?_modify]
  split <;> cases w.requests[j]? <;> rfl

/-- From `w` to `w'` no request was drawn, registered or answered. -/
structure Kept (w w' : WsClient snow) : Prop where
  nextId : w'.nextId = w.nextId
  length : w'.requests.length = w.requests.length
  pending : ∀ id i, w'.pending.lookup id = some i → w.pending.lookup id = some i
  request : ∀ i r r', w.requests[i]? = some r → w'.requests[i]? = some r' → r.Follows r' ∧
    (r'.rx = r.rx ∨ r'.rx = .closed ∧
      ∃ id, w.pending.lookup id = some i ∧ w'.pending.lookup id = none)

theorem Kept.of_eq (hn : w'.nextId = w.nextId) (hr : w'.requests = w.requests)
    (hp : w'.pending = w.pending) : Kept w w' where
  nextId := hn
  length := by rw [hr]
  pending id i h := hp ▸ h
  request i r r' h h' := by
    rw [hr, h] at h'
    cases h'
    exact ⟨.refl r, Or.inl rfl⟩

theorem Kept.refl (w : WsClient snow) : Kept w w := .of_eq rfl rfl rfl

theorem exists_request_of_length (h : w'.requests.length = w.requests.length) {i : ℕ} {r : Request}
    (hr : w.requests[i]? = some r) : ∃ r', w'.requests[i]? = some r' := by
  obtain ⟨hi, -⟩ := List.getElem?_eq_some_iff.mp hr
  exact ⟨_, List.getElem?_eq_getElem (h ▸ hi)⟩

theorem Kept.trans (h : Kept w w') (h' : Kept w' w'') : Kept w w'' where
  nextId := h'.nextId.trans h.nextId
  length := h'.length.trans h.length
  pending id i hi := h.pending id i (h'.pending id i hi)
  request i r r'' hr hr'' := by
    obtain ⟨r', hr'⟩ := exists_request_of_length h.length hr
    obtain ⟨hf, hx⟩ := h.request i r r' hr hr'
    obtain ⟨hf', hx'⟩ := h'.request i r' r'' hr' hr''
    refine ⟨hf.trans hf', ?_⟩
    rcases hx' with hx' | ⟨hx', id, hp, hp'⟩
    · rcases hx with hx | ⟨hx, id, hp, hp'⟩
      · exact Or.inl (hx'.trans hx)
      · refine Or.inr ⟨hx'.trans hx, id, hp, ?_⟩
        by_contra hne
        obtain ⟨j, hj⟩ := Option.ne_none_iff_exists'.mp hne
        rw [h'.pending id j hj] at hp'
        cases hp'
    · exact Or.inr ⟨hx', id, h.pending id i hp, hp'⟩

theorem kept_setStage {i : ℕ} {r : Request} {s : Stage} (hr : w.requests[i]? = some r)
    (hd : ∀ x, r.stage ≠ .done x) (hs : s ≠ .drawn) : Kept w (w.setStage i s) where
  nextId := rfl
  length := List.length_modify _ _ _
  pending _ _ h := h
  request j r₁ r₂ h₁ h₂ := by
    rw [setStage, getElem?_modify] at h₂
    split at h₂
    · next hij =>
      subst hij
      rw [hr] at h₁ h₂
      cases h₁
      cases h₂
      exact ⟨Request.follows_stage hd hs, Or.inl rfl⟩
    · rw [h₁] at h₂
      cases h₂
      exact ⟨.refl _, Or.inl rfl⟩

theorem kept_removePending (w : WsClient snow) (id : UInt32) : Kept w (w.removePending id) := by
  unfold removePending
  split
  · exact .refl w
  · next j hj =>
    constructor
    · rfl
    · exact List.length_modify _ _ _
    · intro id' i h
      have hne : id' ≠ id := by
        rintro rfl
        rw [AList.lookup_erase] at h
        cases h
      rwa [AList.lookup_erase_ne hne] at h
    · intro i r₁ r₂ h₁ h₂
      have hm : (w.modify j Request.close).requests[i]? = some r₂ := h₂
      rw [getElem?_modify, h₁] at hm
      split at hm <;> cases hm
      · next hij =>
        subst hij
        exact ⟨r₁.follows_close, r₁.close_rx.imp_right fun h => ⟨h, id, hj, AList.lookup_erase _ _⟩⟩
      · exact ⟨.refl _, Or.inl rfl⟩

theorem removePending_request {i : ℕ} {r : Request} (id : UInt32) (hr : w.requests[i]? = some r) :
    ∃ r', (w.removePending id).requests[i]? = some r' ∧ r'.stage = r.stage := by
  unfold removePending
  split
  · exact ⟨r, hr, rfl⟩
  · next j _ =>
    refine ⟨if j = i then r.close else r, ?_, by split <;> simp [Request.close_stage]⟩
    have hm := getElem?_modify w j i Request.close
    rw [hr] at hm
    apply hm.trans
    split <;> rfl

theorem kept_clearPending (w : WsClient snow) : Kept w w.clearPending where
  nextId := rfl
  length := List.length_mapIdx
  pending _ _ h := by cases h
  request i r₁ r₂ h₁ h₂ := by
    simp only [clearPending, List.getElem?_mapIdx, h₁, Option.map_some, Option.some.injEq] at h₂
    split at h₂ <;> subst h₂
    · next hany =>
      obtain ⟨⟨id, j⟩, hj, hji⟩ := List.any_eq_true.mp hany
      obtain rfl : j = i := by simpa using hji
      exact ⟨r₁.follows_close, r₁.close_rx.imp_right fun h =>
        ⟨h, id, AList.mem_lookup_iff.mpr hj, rfl⟩⟩
    · exact ⟨.refl _, Or.inl rfl⟩

theorem kept_trySend (w : WsClient snow) (c : ClientCmd) : Kept w (w.trySend cfg c) := by
  obtain ⟨q, hq, -⟩ := w.trySend_eq cfg c
  rw [hq]
  exact .of_eq rfl rfl rfl

theorem kept_react {e : Effect} (he : e.dispatched? = none) :
    Kept w (w.react cfg e).1 ∧ (w.react cfg e).2 = [] := by
  cases e with
  | dispatch f => cases he
  | clearPending => exact ⟨w.kept_clearPending, rfl⟩
  | _ => exact ⟨.refl w, rfl⟩

theorem kept_reactAll {es : List Effect} (he : dispatched es = []) :
    Kept w (w.reactAll cfg es).1 ∧ (w.reactAll cfg es).2 = es.map .loop := by
  induction es generalizing w with
  | nil => exact ⟨.refl w, rfl⟩
  | cons e es ih =>
    have hd : e.dispatched? = none := by
      by_contra hne
      obtain ⟨f, hf⟩ := Option.ne_none_iff_exists'.mp hne
      simp [dispatched, hf] at he
    obtain ⟨hk, ho⟩ : Kept w (w.react cfg e).1 ∧ (w.react cfg e).2 = [] := kept_react hd
    obtain ⟨hk', ho'⟩ := ih (w := (w.react cfg e).1) (by simpa [dispatched, hd] using he)
    exact ⟨hk.trans hk', by simp only [reactAll, ho, ho', List.nil_append, List.map_cons]⟩

theorem finish_spec {i : ℕ} {r : Request} (x : Except TransportError Bytes)
    (hr : w.requests[i]? = some r) (hd : ∀ y, r.stage ≠ .done y) :
    Kept w (w.finish i x).1 ∧ ∃ r', (w.finish i x).1.requests[i]? = some r' ∧
      r'.stage = .done x := by
  refine ⟨kept_setStage hr hd (by simp), { r with stage := .done x }, ?_, rfl⟩
  unfold finish setStage
  rw [getElem?_modify, if_pos rfl, hr]
  rfl

/-- An event of a request registers it, or moves it on and may complete it. -/
theorem stepRequest_cases {i : ℕ} {r : Request} (hr : w.requests[i]? = some r)
    (h : w.stepRequest cfg i r e = some (w', o)) :
    (r.stage = .drawn ∧ w' = w.register i r ∧ o = []) ∨ Kept w w' ∧ (o = [] ∨
      ∃ x r', o = [.completed i x] ∧ (∀ y, r.stage ≠ .done y) ∧ w'.requests[i]? = some r' ∧
        r'.stage = .done x ∧ ∀ data, x = .ok data → r.rx = .value data) := by
  unfold stepRequest at h
  split at h
  · -- register
    split at h <;> cases h
    next hs => exact Or.inl ⟨hs, rfl, rfl⟩
  all_goals refine Or.inr ?_
  · -- permit
    split at h <;> cases h
    next hs => exact ⟨kept_setStage hr (by simp [hs.1]) (by simp), Or.inl rfl⟩
  · -- enqueue
    split at h <;> cases h
    next hs =>
    exact ⟨(kept_setStage hr (by simp [hs.1]) (by simp)).trans (.of_eq rfl rfl rfl), Or.inl rfl⟩
  · -- refuse
    split at h <;> cases h
    next hs =>
    have hd : ∀ y, r.stage ≠ .done y := by
      intro y hy
      simp [hy] at hs
    obtain ⟨hk, r', hr', hs'⟩ := finish_spec (.error .channelError) hr hd
    exact ⟨hk, Or.inr ⟨_, r', rfl, hd, hr', hs', by simp⟩⟩
  · -- resolve
    split at h <;> cases h
    · next hs hx =>
      have hd : ∀ y, r.stage ≠ .done y := by simp [hs]
      obtain ⟨hk, r', hr', hs'⟩ := finish_spec (.ok _) hr hd
      refine ⟨hk, Or.inr ⟨_, r', rfl, hd, hr', hs', ?_⟩⟩
      rintro data ⟨⟩
      exact hx
    · next hs _ => exact ⟨kept_setStage hr (by simp [hs]) (by simp), Or.inl rfl⟩
  · -- expire
    split at h
    · next hs =>
      split at h <;> cases h
      exact ⟨kept_setStage hr (by simp [hs]) (by simp), Or.inl rfl⟩
    · cases h
  · -- remove
    split at h <;> cases h
    next hs =>
    have hd : ∀ y, r.stage ≠ .done y := by simp [hs]
    obtain ⟨r₁, hr₁, hs₁⟩ := removePending_request r.id hr
    obtain ⟨hk, r', hr', hs'⟩ := finish_spec (.error _) hr₁ (by simpa [hs₁] using hd)
    exact ⟨(kept_removePending w r.id).trans hk, Or.inr ⟨_, r', rfl, hd, hr', hs', by simp⟩⟩
  · -- drop
    split at h <;> cases h
    all_goals next hs => exact ⟨kept_setStage hr (by simp [hs]) (by simp), Or.inl rfl⟩
  · cases h

/-- A step of the client by what takes it: the loop, a request, or another call. -/
theorem step_inv (h : w.step pc cfg parses e = some (w', o)) :
    (∃ i, e = .loop i ∧ w.stepLoop pc cfg i = some (w', o)) ∨
      (∃ i r, w.requests[i]? = some r ∧ w.stepRequest cfg i r e = some (w', o)) ∨
      o = [] ∧ ((∃ data priority, w' = w.draw data priority) ∨ Kept w w') := by
  cases e <;> simp only [step] at h
  case loop i => exact Or.inl ⟨i, rfl, h⟩
  case register | permit | enqueue | refuse | resolve | expire | remove | drop =>
    split at h
    · next r hr => exact Or.inr (Or.inl ⟨_, r, hr, h⟩)
    · cases h
  all_goals refine Or.inr (Or.inr ?_)
  case request data priority =>
    cases h
    exact ⟨rfl, Or.inl ⟨data, priority, rfl⟩⟩
  case setEndpoint url =>
    cases h
    refine ⟨rfl, Or.inr ?_⟩
    unfold setEndpoint
    split
    · exact .of_eq rfl rfl rfl
    · exact .refl w
  case notify k =>
    split at h <;> cases h
    have hk : Kept w { w with calls := w.calls.eraseIdx k } := .of_eq rfl rfl rfl
    exact ⟨rfl, Or.inr (hk.trans (kept_trySend _ _))⟩
  case reconnect | wake | sendEvent =>
    cases h
    exact ⟨rfl, Or.inr (kept_trySend _ _)⟩
  all_goals
    cases h
    exact ⟨rfl, Or.inr (.of_eq rfl rfl rfl)⟩

/-- A step of the loop in a run of the client. -/
theorem step_loop {x : Effect} (h : w.step pc cfg parses e = some (w', o)) (hx : .loop x ∈ o) :
    ∃ i, e = .loop i ∧ w.stepLoop pc cfg i = some (w', o) := by
  rcases step_inv h with hl | ⟨i, r, hr, hs⟩ | ⟨rfl, -⟩
  · exact hl
  · rcases stepRequest_cases hr hs with ⟨-, -, rfl⟩ | ⟨-, rfl | ⟨y, -, rfl, -⟩⟩ <;> simp at hx
  · cases hx

/-- A frame that answers a request. -/
def IsResponse (f : Frame) : Prop := f.kind = .message ∧ 0 < f.id

theorem handleEvent_output {f : Frame} {x : Output} (h : x ∈ (w.handleEvent f).2) :
    x = .handled f := by
  unfold handleEvent at h
  split at h
  · exact List.mem_singleton.mp h
  · cases h

theorem dispatchFrame_output {f : Frame} {x : Output} (h : x ∈ (w.dispatchFrame cfg f).2) :
    x = .handled f ∧ ¬ IsResponse f := by
  unfold dispatchFrame at h
  split at h
  · next hk =>
    split at h
    · split at h <;> cases h
    · next hid => exact ⟨handleEvent_output h, fun hr => hid hr.2⟩
  · next hk => exact ⟨handleEvent_output h, fun hr => by simp [hk, IsResponse] at hr⟩
  all_goals cases h

/-- What a step does when the loop dispatches a frame. -/
theorem step_dispatch {f : Frame} (h : w.step pc cfg parses e = some (w', o))
    (hf : .loop (.dispatch f) ∈ o) : ∃ (m : WsClient snow) (i : Input), m.nextId = w.nextId ∧
      m.requests = w.requests ∧ m.pending = w.pending ∧ w' = (m.dispatchFrame cfg f).1 ∧
      o = .loop (.resumed i) :: .loop (.dispatch f) :: (m.dispatchFrame cfg f).2 := by
  obtain ⟨i, -, hs⟩ := step_loop h hf
  obtain ⟨-, r, hr, rfl, rfl⟩ := stepLoop_eq_some.mp hs
  obtain ⟨q, hq, -⟩ := w.resume_eq i r.1
  rcases Loop.step_dispatched hr with hd | ⟨f', hd⟩
  · rw [(kept_reactAll hd).2] at hf
    have hm : f ∈ dispatched r.2 := List.mem_filterMap.mpr ⟨.dispatch f, by simpa using hf, rfl⟩
    rw [hd] at hm
    cases hm
  · rw [hd] at hf
    simp only [reactAll, react, List.append_nil, List.mem_cons, reduceCtorEq, Output.loop.injEq,
      Effect.dispatch.injEq, false_or] at hf
    rcases hf with rfl | hf
    · exact ⟨w.resume i r.1, i, by rw [hq], by rw [hq], by rw [hq],
        by simp only [hd, reactAll, react], by simp only [hd, reactAll, react, List.append_nil]⟩
    · cases (dispatchFrame_output hf).1

/-- `w'` is `w` after the response `f` has been given to the `i`-th request. -/
structure Delivered (w w' : WsClient snow) (f : Frame) (i : ℕ) : Prop where
  response : IsResponse f
  lookup : w.pending.lookup f.id = some i
  nextId : w'.nextId = w.nextId
  requests : w'.requests = (w.modify i (·.answer f.data)).requests
  pending : w'.pending = w.pending.erase f.id

theorem dispatchFrame_cases (cfg : WsClientConfig) (w : WsClient snow) (f : Frame) :
    (∃ q, (w.dispatchFrame cfg f).1 = { w with queue := q }) ∨
      ∃ i, Delivered w (w.dispatchFrame cfg f).1 f i := by
  unfold dispatchFrame
  split
  · next hk =>
    split
    · next hid =>
      split
      · exact Or.inl ⟨_, rfl⟩
      · next i hi => exact Or.inr ⟨i, ⟨hk, hid⟩, hi, rfl, rfl, rfl⟩
    · exact Or.inl ⟨_, rfl⟩
  · exact Or.inl ⟨_, rfl⟩
  · exact Or.inl ⟨_, rfl⟩
  · obtain ⟨q, hq, -⟩ := w.trySend_eq cfg (.send ⟨0, .pong, []⟩ .realTime)
    exact Or.inl ⟨q, hq⟩

/-- A dispatched frame leaves all requests as they are or is delivered to one. -/
theorem step_dispatch_cases {f : Frame} (h : w.step pc cfg parses e = some (w', o))
    (hf : .loop (.dispatch f) ∈ o) :
    (w'.nextId = w.nextId ∧ w'.requests = w.requests ∧ w'.pending = w.pending) ∨
      ∃ i, Delivered w w' f i := by
  obtain ⟨m, -, hn, hr, hp, rfl, -⟩ := step_dispatch h hf
  rcases m.dispatchFrame_cases cfg f with ⟨q, hq⟩ | ⟨i, hd⟩
  · rw [hq]
    exact Or.inl ⟨hn, hr, hp⟩
  · refine Or.inr ⟨i, hd.response, hp ▸ hd.lookup, hd.nextId.trans hn, ?_, hp ▸ hd.pending⟩
    rw [hd.requests, modify, modify, hr]

/-- The four things that a step can do to the requests. -/
theorem step_cases (h : w.step pc cfg parses e = some (w', o)) :
    Kept w w' ∨ (∃ data priority, w' = w.draw data priority) ∨
      (∃ i r, w.requests[i]? = some r ∧ r.stage = .drawn ∧ w' = w.register i r) ∨
      ∃ f i, .loop (.dispatch f) ∈ o ∧ Delivered w w' f i := by
  rcases step_inv h with ⟨i, rfl, hs⟩ | ⟨i, r, hr, hs⟩ | ⟨-, hd | hk⟩
  · obtain ⟨-, r, hr, hw, ho⟩ := stepLoop_eq_some.mp hs
    rcases Loop.step_dispatched hr with hd | ⟨f, hd⟩
    · obtain ⟨q, hq, -⟩ := w.resume_eq i r.1
      rw [hw]
      exact Or.inl ((Kept.of_eq (by rw [hq]) (by rw [hq]) (by rw [hq])).trans (kept_reactAll hd).1)
    · have hf : .loop (.dispatch f) ∈ o := by simp [ho, hd, reactAll]
      rcases step_dispatch_cases h hf with ⟨hn, hr, hp⟩ | ⟨i, hd⟩
      · exact Or.inl (.of_eq hn hr hp)
      · exact Or.inr (Or.inr (Or.inr ⟨f, i, hf, hd⟩))
  · rcases stepRequest_cases hr hs with ⟨hd, hw, -⟩ | ⟨hk, -⟩
    · exact Or.inr (Or.inr (Or.inl ⟨i, r, hr, hd, hw⟩))
    · exact Or.inl hk
  · exact Or.inr (Or.inl hd)
  · exact Or.inl hk

/-- Every entry of `pending` belongs to one request that is still open. -/
structure Routed (w : WsClient snow) : Prop where
  nextId : w.nextId = .ofNat (2 + w.requests.length)
  id : ∀ (i : ℕ) (r : Request), w.requests[i]? = some r → r.id = .ofNat (2 + i)
  pending : ∀ id i, w.pending.lookup id = some i →
    ∃ r, w.requests[i]? = some r ∧ r.id = id ∧ r.rx = .empty ∧ r.stage ≠ .drawn
  drawn : ∀ (i : ℕ) (r : Request), w.requests[i]? = some r → r.stage = .drawn → r.rx = .empty

theorem routed_new : Routed (new : WsClient snow) where
  nextId := rfl
  id i r h := by cases h
  pending id i h := by cases h
  drawn i r h := by cases h

theorem Routed.kept (hw : Routed w) (h : Kept w w') : Routed w' where
  nextId := by rw [h.nextId, h.length, hw.nextId]
  id i r' hr' := by
    obtain ⟨r, hr⟩ := exists_request_of_length h.length.symm hr'
    rw [(h.request i r r' hr hr').1.1, hw.id i r hr]
  pending id i hi := by
    obtain ⟨r, hr, hid, hx, hs⟩ := hw.pending id i (h.pending id i hi)
    obtain ⟨r', hr'⟩ := exists_request_of_length h.length hr
    obtain ⟨hf, hx'⟩ := h.request i r r' hr hr'
    refine ⟨r', hr', hf.1.trans hid, ?_, fun hd => hs (hf.2.1 hd)⟩
    rcases hx' with hx' | ⟨-, id', hp, hp'⟩
    · exact hx'.trans hx
    · -- the entry that was closed is the entry of this request
      obtain ⟨r₁, hr₁, hid', -⟩ := hw.pending id' i hp
      rw [hr] at hr₁
      cases hr₁
      rw [← hid', hid, hi] at hp'
      cases hp'
  drawn i r' hr' hd := by
    obtain ⟨r, hr⟩ := exists_request_of_length h.length.symm hr'
    obtain ⟨hf, hx⟩ := h.request i r r' hr hr'
    rcases hx with hx | ⟨-, id, hp, -⟩
    · rw [hx, hw.drawn i r hr (hf.2.1 hd)]
    · obtain ⟨r₁, hr₁, -, -, hs⟩ := hw.pending id i hp
      rw [hr] at hr₁
      cases hr₁
      exact absurd (hf.2.1 hd) hs

theorem draw_request {data : Bytes} {priority : MessagePriority} {i : ℕ} {r : Request}
    (h : (w.draw data priority).requests[i]? = some r) : w.requests[i]? = some r ∨
      i = w.requests.length ∧ r = ⟨w.nextId, data, priority, .drawn, .empty⟩ := by
  simp only [draw, List.getElem?_append] at h
  split at h
  · exact Or.inl h
  · next hi =>
    rw [List.getElem?_singleton] at h
    split at h <;> cases h
    exact Or.inr ⟨by omega, rfl⟩

theorem Routed.draw (hw : Routed w) (data : Bytes) (priority : MessagePriority) :
    Routed (w.draw data priority) where
  nextId := by
    change w.nextId + 1 = .ofNat (2 + (w.requests ++ [_]).length)
    rw [hw.nextId, List.length_append, List.length_singleton]
    exact (UInt32.ofNat_add _ 1).symm
  id i r hr := by
    rcases draw_request hr with hr | ⟨rfl, rfl⟩
    · exact hw.id i r hr
    · exact hw.nextId
  pending id i hi := by
    obtain ⟨r, hr, hrest⟩ := hw.pending id i hi
    refine ⟨r, ?_, hrest⟩
    exact (List.getElem?_append_left (List.getElem?_eq_some_iff.mp hr).1).trans hr
  drawn i r hr hs := by
    rcases draw_request hr with hr | ⟨-, rfl⟩
    · exact hw.drawn i r hr hs
    · rfl

theorem Delivered.request {f : Frame} {i : ℕ} (h : Delivered w w' f i) {j : ℕ} {r' : Request}
    (hr' : w'.requests[j]? = some r') : ∃ r, w.requests[j]? = some r ∧
      (j = i ∧ r' = r.answer f.data ∨ j ≠ i ∧ r' = r) := by
  rw [h.requests, getElem?_modify] at hr'
  split at hr'
  · next hij =>
    subst hij
    obtain ⟨r, hr, rfl⟩ := Option.map_eq_some_iff.mp hr'
    exact ⟨r, hr, Or.inl ⟨rfl, rfl⟩⟩
  · next hij => exact ⟨r', hr', Or.inr ⟨Ne.symm hij, rfl⟩⟩

theorem Delivered.length {f : Frame} {i : ℕ} (h : Delivered w w' f i) :
    w'.requests.length = w.requests.length := by
  rw [h.requests]
  exact List.length_modify _ _ _

theorem Routed.delivered (hw : Routed w) {f : Frame} {i : ℕ} (h : Delivered w w' f i) :
    Routed w' where
  nextId := by rw [h.nextId, h.length, hw.nextId]
  id j r' hr' := by
    obtain ⟨r, hr, ⟨-, rfl⟩ | ⟨-, rfl⟩⟩ := h.request hr'
    · exact hw.id j r hr
    · exact hw.id j _ hr
  pending id j hj := by
    have hne : id ≠ f.id := by
      rintro rfl
      rw [h.pending, AList.lookup_erase] at hj
      cases hj
    rw [h.pending, AList.lookup_erase_ne hne] at hj
    obtain ⟨r, hr, hid, hrest⟩ := hw.pending id j hj
    have hji : j ≠ i := by
      rintro rfl
      obtain ⟨r₁, hr₁, hid', -⟩ := hw.pending f.id j h.lookup
      rw [hr] at hr₁
      cases hr₁
      exact hne (hid.symm.trans hid')
    refine ⟨r, ?_, hid, hrest⟩
    rw [h.requests, getElem?_modify, if_neg (Ne.symm hji), hr]
  drawn j r' hr' hs := by
    obtain ⟨r, hr, ⟨rfl, rfl⟩ | ⟨-, rfl⟩⟩ := h.request hr'
    · -- a request that is answered is pending, so it is not drawn
      obtain ⟨r₁, hr₁, -, -, hs₁⟩ := hw.pending f.id j h.lookup
      rw [hr] at hr₁
      cases hr₁
      exact absurd hs hs₁
    · exact hw.drawn j _ hr hs

/-- `register` apart from the new entry in `pending`. -/
theorem kept_registered {i : ℕ} {r : Request} (hr : w.requests[i]? = some r)
    (hs : r.stage = .drawn) : Kept w ((w.removePending r.id).setStage i .registered) := by
  obtain ⟨r', hr', hs'⟩ := removePending_request r.id hr
  exact (kept_removePending w r.id).trans (kept_setStage hr' (by simp [hs', hs]) (by simp))

theorem Routed.register (hw : Routed w) {i : ℕ} {r : Request} (hr : w.requests[i]? = some r)
    (hs : r.stage = .drawn) : Routed (w.register i r) := by
  have hw' : Routed (w.removePending r.id) := hw.kept (kept_removePending w r.id)
  have hm : Routed ((w.removePending r.id).setStage i .registered) :=
    hw.kept (kept_registered hr hs)
  obtain ⟨r', hr', hs'⟩ := removePending_request r.id hr
  have hid : r'.id = r.id := by rw [hw'.id i r' hr', hw.id i r hr]
  constructor
  · exact hm.nextId
  · exact hm.id
  · intro id j hj
    by_cases hne : id = r.id
    · subst hne
      obtain rfl : i = j := by
        rw [WsClient.register, AList.lookup_insert] at hj
        exact Option.some.inj hj
      refine ⟨{ r' with stage := .registered }, ?_, hid, hw'.drawn i r' hr' (hs'.trans hs), by simp⟩
      rw [WsClient.register, getElem?_modify, if_pos rfl, hr']
      rfl
    · rw [WsClient.register, AList.lookup_insert_ne hne] at hj
      exact hm.pending id j hj
  · exact hm.drawn

theorem Routed.step (hw : Routed w) (h : w.step pc cfg parses e = some (w', o)) : Routed w' := by
  rcases step_cases h with hk | ⟨data, priority, rfl⟩ | ⟨i, r, hr, hs, rfl⟩ | ⟨f, i, -, hd⟩
  · exact hw.kept hk
  · exact hw.draw data priority
  · exact hw.register hr hs
  · exact hw.delivered hd

theorem step_length (h : w.step pc cfg parses e = some (w', o)) :
    w'.requests.length = w.requests.length ∨ ∃ data priority, w' = w.draw data priority := by
  rcases step_cases h with hk | hd | ⟨i, r, hr, hs, rfl⟩ | ⟨f, i, -, hd⟩
  · exact Or.inl hk.length
  · exact Or.inr hd
  · exact Or.inl (kept_registered hr hs).length
  · exact Or.inl hd.length

theorem run_routed {es : List Event} {tr : List Output}
    (h : (machine pc cfg parses snow).run new es = some (w, tr)) : Routed w :=
  Mealy.run_invariant (P := Routed) (fun _ _ _ _ hw hs => hw.step hs) h routed_new

/-- A request goes on, and the only new value it can have is that of a response. -/
theorem step_request {i : ℕ} {r : Request} (h : w.step pc cfg parses e = some (w', o))
    (hr : w.requests[i]? = some r) : ∃ r', w'.requests[i]? = some r' ∧ r.Follows r' ∧
      ∀ data, r'.rx = .value data → r.rx = .value data ∨
        ∃ f, .loop (.dispatch f) ∈ o ∧ Delivered w w' f i ∧ f.data = data := by
  have hkept : ∀ {m : WsClient snow}, Kept w m → ∃ r', m.requests[i]? = some r' ∧ r.Follows r' ∧
      ∀ data, r'.rx = .value data → r.rx = .value data := by
    intro m hk
    obtain ⟨r', hr'⟩ := exists_request_of_length hk.length hr
    obtain ⟨hf, hx⟩ := hk.request i r r' hr hr'
    refine ⟨r', hr', hf, fun data hv => ?_⟩
    rcases hx with hx | ⟨hx, -⟩
    · exact hx.symm.trans hv
    · rw [hx] at hv
      cases hv
  rcases step_cases h with hk | ⟨data, priority, rfl⟩ | ⟨j, q, hq, hs, rfl⟩ | ⟨f, j, hf, hd⟩
  · obtain ⟨r', hr', hfol, hv⟩ := hkept hk
    exact ⟨r', hr', hfol, fun data hx => Or.inl (hv data hx)⟩
  · refine ⟨r, ?_, .refl r, fun data hx => Or.inl hx⟩
    exact (List.getElem?_append_left (List.getElem?_eq_some_iff.mp hr).1).trans hr
  · obtain ⟨r', hr', hfol, hv⟩ := hkept (kept_registered hq hs)
    exact ⟨r', hr', hfol, fun data hx => Or.inl (hv data hx)⟩
  · obtain ⟨r', hr'⟩ := exists_request_of_length hd.length hr
    obtain ⟨r₁, hr₁, ⟨rfl, rfl⟩ | ⟨-, rfl⟩⟩ := hd.request hr' <;> rw [hr] at hr₁ <;> cases hr₁
    · refine ⟨_, hr', r.follows_answer _, fun data hx => Or.inr ⟨f, hf, hd, ?_⟩⟩
      cases hx
      rfl
    · exact ⟨_, hr', .refl _, fun data hx => Or.inl hx⟩

/-- What the callers see of a step. -/
theorem step_output {x : Output} (h : w.step pc cfg parses e = some (w', o)) (hx : x ∈ o) :
    (∃ y, x = .loop y) ∨ (∃ f, x = .handled f ∧ ¬ IsResponse f) ∨
      ∃ i r, w.requests[i]? = some r ∧ w.stepRequest cfg i r e = some (w', o) := by
  rcases step_inv h with ⟨i, rfl, hs⟩ | hs | ⟨rfl, -⟩
  · obtain ⟨-, r, hr, -, ho⟩ := stepLoop_eq_some.mp hs
    rcases Loop.step_dispatched hr with hd | ⟨f, hd⟩
    · rw [ho, (kept_reactAll hd).2] at hx
      rcases List.mem_cons.mp hx with rfl | hx
      · exact Or.inl ⟨_, rfl⟩
      · obtain ⟨y, -, rfl⟩ := List.mem_map.mp hx
        exact Or.inl ⟨y, rfl⟩
    · have hf : .loop (.dispatch f) ∈ o := by simp [ho, hd, reactAll]
      obtain ⟨m, j, -, -, -, -, rfl⟩ := step_dispatch h hf
      rcases List.mem_cons.mp hx with rfl | hx
      · exact Or.inl ⟨_, rfl⟩
      · rcases List.mem_cons.mp hx with rfl | hx
        · exact Or.inl ⟨_, rfl⟩
        · exact Or.inr (Or.inl ⟨f, dispatchFrame_output hx⟩)
  · exact Or.inr (Or.inr hs)
  · cases hx

theorem step_handled {f : Frame} (h : w.step pc cfg parses e = some (w', o))
    (hf : .handled f ∈ o) : ¬ IsResponse f := by
  rcases step_output h hf with ⟨y, ⟨⟩⟩ | ⟨f, ⟨⟩, hr⟩ | ⟨i, r, hr, hs⟩
  · exact hr
  · rcases stepRequest_cases hr hs with ⟨-, -, rfl⟩ | ⟨-, rfl | ⟨y, -, rfl, -⟩⟩ <;> simp at hf

/-- A request that completes has not completed before, and returns `Ok` with its value. -/
theorem step_completed {i : ℕ} {x : Except TransportError Bytes}
    (h : w.step pc cfg parses e = some (w', o)) (hx : .completed i x ∈ o) :
    o = [.completed i x] ∧ ∃ r r', w.requests[i]? = some r ∧ w'.requests[i]? = some r' ∧
      (∀ y, r.stage ≠ .done y) ∧ r'.stage = .done x ∧
        ∀ data, x = .ok data → r.rx = .value data := by
  rcases step_output h hx with ⟨y, ⟨⟩⟩ | ⟨f, ⟨⟩, -⟩ | ⟨j, r, hr, hs⟩
  rcases stepRequest_cases hr hs with ⟨-, -, rfl⟩ | ⟨-, rfl | ⟨y, r', rfl, hd, hr', hs', hv⟩⟩
  · cases hx
  · cases hx
  · cases List.mem_singleton.mp hx
    exact ⟨rfl, r, r', hr, hr', hd, hs', hv⟩

variable {es : List Event} {tr : List Output}

theorem run_completed (h : (machine pc cfg parses snow).run new es = some (w, tr)) :
    (∀ i, i ∈ tr.filterMap Output.completed? →
      ∃ r x, w.requests[i]? = some r ∧ r.stage = .done x) ∧
    (tr.filterMap Output.completed?).Nodup := by
  refine Mealy.run_induction (P := fun _ tr w => (∀ i, i ∈ tr.filterMap Output.completed? →
    ∃ r x, w.requests[i]? = some r ∧ r.stage = .done x) ∧
      (tr.filterMap Output.completed?).Nodup) ⟨by simp, by simp⟩ ?_ h
  rintro es tr w e w' o - ⟨hd, hn⟩ hs
  have hold : ∀ i, i ∈ tr.filterMap Output.completed? →
      ∃ r x, w'.requests[i]? = some r ∧ r.stage = .done x := by
    intro i hi
    obtain ⟨r, x, hr, hx⟩ := hd i hi
    obtain ⟨r', hr', hf, -⟩ := step_request hs hr
    exact ⟨r', x, hr', hf.2.2 x hx⟩
  rw [List.filterMap_append]
  by_cases hc : ∃ i x, .completed i x ∈ o
  · obtain ⟨i, x, hx⟩ := hc
    obtain ⟨rfl, r, r', hr, hr', hnew, hdone, -⟩ := step_completed hs hx
    constructor
    · intro j hj
      rcases List.mem_append.mp hj with hj | hj
      · exact hold j hj
      · obtain rfl : j = i := by simpa [Output.completed?] using hj
        exact ⟨r', x, hr', hdone⟩
    · refine hn.append (by simp [Output.completed?]) ?_
      rintro j hj hj'
      obtain rfl : j = i := by simpa [Output.completed?] using hj'
      obtain ⟨r₁, y, hr₁, hy⟩ := hd j hj
      rw [hr] at hr₁
      cases hr₁
      exact hnew y hy
  · have ho : o.filterMap Output.completed? = [] := by
      rw [List.filterMap_eq_nil_iff]
      intro x hx
      cases x with
      | completed i r => exact absurd ⟨i, r, hx⟩ hc
      | _ => rfl
    rw [ho, List.append_nil]
    exact ⟨hold, hn⟩

/-- The response `f` carries the id of the `i`-th request, which is pending. -/
def Answers (w : WsClient snow) (f : Frame) (i : ℕ) : Prop :=
  IsResponse f ∧ w.pending.lookup f.id = some i ∧ ∃ r, w.requests[i]? = some r ∧ r.id = f.id

variable (pc cfg parses snow) in
/-- In the run that reads `es`, the step at position `k` dispatches a response with this data
to the `i`-th request. -/
def AnsweredAt (es : List Event) (k i : ℕ) (data : Bytes) : Prop :=
  ∃ pre e post m u m' o f, es = pre ++ e :: post ∧ pre.length = k ∧
    (machine pc cfg parses snow).run new pre = some (m, u) ∧
    m.step pc cfg parses e = some (m', o) ∧ .loop (.dispatch f) ∈ o ∧ Answers m f i ∧
    f.data = data

theorem AnsweredAt.append {k i : ℕ} {data : Bytes}
    (h : AnsweredAt snow pc cfg parses es k i data) (es' : List Event) :
    AnsweredAt snow pc cfg parses (es ++ es') k i data := by
  obtain ⟨pre, e, post, m, u, m', o, f, rfl, hrest⟩ := h
  exact ⟨pre, e, post ++ es', m, u, m', o, f, by simp, hrest⟩

theorem run_answered (h : (machine pc cfg parses snow).run new es = some (w, tr)) :
    ∀ i (r : Request) data, w.requests[i]? = some r → r.rx = .value data →
      ∃ k, AnsweredAt snow pc cfg parses es k i data := by
  refine Mealy.run_induction (P := fun es _ w => ∀ i (r : Request) data,
    w.requests[i]? = some r → r.rx = .value data →
      ∃ k, AnsweredAt snow pc cfg parses es k i data) (by rintro i r data ⟨⟩) ?_ h
  intro es tr m e m' o hrun ih hs i r' data hr' hv
  have hm : Routed m := run_routed hrun
  by_cases hi : i < m.requests.length
  · obtain ⟨r, hr⟩ : ∃ r, m.requests[i]? = some r := ⟨_, List.getElem?_eq_getElem hi⟩
    obtain ⟨r₁, hr₁, -, hval⟩ := step_request hs hr
    rw [hr'] at hr₁
    cases hr₁
    rcases hval data hv with hold | ⟨f, hf, hd, hdata⟩
    · obtain ⟨k, hk⟩ := ih i r data hr hold
      exact ⟨k, hk.append [e]⟩
    · obtain ⟨q, hq, hid, -⟩ := hm.pending f.id i hd.lookup
      exact ⟨es.length, es, e, [], m, tr, m', o, f, rfl, rfl, hrun, hs, hf,
        ⟨hd.response, hd.lookup, q, hq, hid⟩, hdata⟩
  · -- the request has just been drawn
    rcases step_length hs with hl | ⟨data', priority, rfl⟩
    · exact absurd (hl ▸ (List.getElem?_eq_some_iff.mp hr').1) hi
    · rcases draw_request hr' with hr' | ⟨-, rfl⟩
      · exact absurd (List.getElem?_eq_some_iff.mp hr').1 hi
      · cases hv

theorem run_length (h : (machine pc cfg parses snow).run w es = some (w', tr)) :
    w.requests.length ≤ w'.requests.length := by
  refine Mealy.run_invariant (P := fun m => w.requests.length ≤ m.requests.length) ?_ h le_rfl
  intro m e m' o hm hs
  rcases step_length hs with hl | ⟨data, priority, rfl⟩
  · rwa [hl]
  · simpa [draw] using Nat.le_succ_of_le hm

/-- Before the counter wraps, an id belongs to one request. -/
theorem Routed.id_injective (hw : Routed w) (hn : w.requests.length < 2 ^ 32 - 2) {i j : ℕ}
    {r q : Request} (hr : w.requests[i]? = some r) (hq : w.requests[j]? = some q)
    (h : r.id = q.id) : i = j := by
  have hi := (List.getElem?_eq_some_iff.mp hr).1
  have hj := (List.getElem?_eq_some_iff.mp hq).1
  rw [hw.id i r hr, hw.id j q hq] at h
  have h' := congrArg UInt32.toNat h
  rw [UInt32.toNat_ofNat', UInt32.toNat_ofNat'] at h'
  omega

/-- A step dispatches at most one frame. -/
theorem step_dispatch_unique {f g : Frame} (h : w.step pc cfg parses e = some (w', o))
    (hf : .loop (.dispatch f) ∈ o) (hg : .loop (.dispatch g) ∈ o) : f = g := by
  obtain ⟨m, i, -, -, -, -, rfl⟩ := step_dispatch h hg
  rcases List.mem_cons.mp hf with hf | hf
  · cases hf
  · rcases List.mem_cons.mp hf with hf | hf
    · cases hf
      rfl
    · cases (dispatchFrame_output hf).1

theorem AnsweredAt.unique {k i j : ℕ} {data data' : Bytes}
    (h : AnsweredAt snow pc cfg parses es k i data)
    (h' : AnsweredAt snow pc cfg parses es k j data') : i = j := by
  obtain ⟨pre, e, post, m, u, m₁, o, f, rfl, rfl, hr, hs, hf, ⟨-, hi, -⟩, -⟩ := h
  obtain ⟨pre', e', post', n, v, n₁, q, g, he, hk, hr', hs', hg, ⟨-, hj, -⟩, -⟩ := h'
  obtain ⟨rfl, hcons⟩ := List.append_inj he hk.symm
  cases hcons
  cases hr.symm.trans hr'
  cases hs.symm.trans hs'
  obtain rfl := step_dispatch_unique hs hf hg
  exact Option.some.inj (hi.symm.trans hj)

/-- A response leaves every request alone but the one that is pending under its id. -/
theorem Delivered.answers (hw : Routed w) {f : Frame} {i j : ℕ} (h : Delivered w w' f i)
    (hj : w'.requests[j]? ≠ w.requests[j]?) : Answers w f j := by
  obtain rfl : i = j := by
    by_contra hne
    rw [h.requests, getElem?_modify, if_neg hne] at hj
    exact hj rfl
  obtain ⟨r, hr, hid, -⟩ := hw.pending f.id i h.lookup
  exact ⟨h.response, h.lookup, r, hr, hid⟩

/-- Responses are routed to the requests they answer, each request completes at most once
and each response completes at most one. -/
theorem run_requests_routed (h : (machine pc cfg parses snow).run new es = some (w, tr))
    (hn : w.requests.length < 2 ^ 32 - 2) :
    (∀ i data, .completed i (.ok data) ∈ tr → ∃ k, AnsweredAt snow pc cfg parses es k i data) ∧
    (tr.filterMap Output.completed?).Nodup ∧
    (∀ k i j data data', AnsweredAt snow pc cfg parses es k i data →
      AnsweredAt snow pc cfg parses es k j data' → i = j) ∧
    (∀ pre e post m u m' o f, es = pre ++ e :: post →
      (machine pc cfg parses snow).run new pre = some (m, u) →
      m.step pc cfg parses e = some (m', o) → .loop (.dispatch f) ∈ o → IsResponse f →
      (∀ id, id ≠ f.id → m'.pending.lookup id = m.pending.lookup id) ∧
      ∀ j, m'.requests[j]? ≠ m.requests[j]? → Answers m f j ∧
        ∀ i (r : Request), m.requests[i]? = some r → r.id = f.id → i = j) ∧
    ∀ f, .handled f ∈ tr → ¬ IsResponse f := by
  refine ⟨?_, (run_completed h).2, ?_, ?_, ?_⟩
  · intro i data hc
    obtain ⟨u, v, rfl⟩ := List.append_of_mem hc
    obtain ⟨pre, e, post, m, tr, m', o₁, o₂, rfl, hr, hs, -⟩ := Mealy.run_split h
    obtain ⟨-, r, -, hr', -, -, -, hv⟩ := step_completed (i := i) (x := .ok data) hs (by simp)
    obtain ⟨k, hk⟩ := run_answered hr i r data hr' (hv data rfl)
    exact ⟨k, hk.append _⟩
  · intro k i j data data' hi hj
    exact hi.unique hj
  · rintro pre e post m u m' o f rfl hpre hs hf -
    have hm : Routed m := run_routed hpre
    have hlen : m.requests.length < 2 ^ 32 - 2 := by
      obtain ⟨_, hpost, -⟩ := Mealy.run_rest h hpre
      exact (run_length hpost).trans_lt hn
    rcases step_dispatch_cases hs hf with ⟨-, hr, hp⟩ | ⟨i, hd⟩
    · rw [hr, hp]
      exact ⟨fun _ _ => rfl, fun j hj => absurd rfl hj⟩
    · refine ⟨fun id hne => by rw [hd.pending, AList.lookup_erase_ne hne], fun j hj => ?_⟩
      have ha : Answers m f j := hd.answers hm hj
      refine ⟨ha, fun i' r hr hid => ?_⟩
      obtain ⟨-, -, q, hq, hid'⟩ := ha
      exact hm.id_injective hlen hr hq (hid.trans hid'.symm)
  · intro f hf
    obtain ⟨m, e, m', o, hs, ho⟩ := Mealy.run_output h hf
    exact step_handled hs ho

/-- A first request that is answered while the client is online. -/
def answeredRequest (url : Text) : List Event :=
  .setEndpoint url :: (Loop.goingOnline url).map (fun i => .loop i.2) ++
    [.request [5] .normal, .register 0, .permit 0, .enqueue 0,
      .loop (.cmd (.send ⟨2, .message, [5]⟩ .normal)), .loop (.sent (.ok ())), .loop .noCmd,
      .loop (.next (some (.ok (.binary (toLE32 4 ++ [2, 0, 1, 7] ++ Ideal.tag 0))))), .resolve 0]

theorem run_requests_routed_answered : ∃ w tr,
    (machine .wire .sample (fun _ => true) (Snow.ideal Ideal.genuine)).run new
        (answeredRequest "ws://a".toList) = some (w, tr) ∧
      .completed 0 (.ok [7]) ∈ tr ∧
      ∃ k, AnsweredAt (Snow.ideal Ideal.genuine) .wire .sample (fun _ => true)
        (answeredRequest "ws://a".toList) k 0 [7] := by
  have hrun : ((machine .wire .sample (fun _ => true) (Snow.ideal Ideal.genuine)).run new
      (answeredRequest "ws://a".toList)).any (fun x =>
        .completed 0 (.ok [7]) ∈ x.2 ∧ x.1.requests.length < 2 ^ 32 - 2) = true := by
    decide +kernel
  obtain ⟨⟨w, tr⟩, h, hx⟩ := (Option.any_eq_true _ _).mp hrun
  obtain ⟨hc, hn⟩ := of_decide_eq_true hx
  exact ⟨w, tr, h, hc, (run_requests_routed h hn).1 0 [7] hc⟩

end WsClient

end NotifiTransport

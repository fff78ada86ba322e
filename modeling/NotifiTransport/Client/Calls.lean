import NotifiTransport.Client.Flow
import NotifiTransport.Client.LoopRun
import NotifiTransport.Client.StaleCommands

/-! # The calls of the client

A `request` that has got its slot and a `send_event` that finds room put a frame in the command
channel. What a connection seals, apart from the auth frame, Pings and Pongs, are for each priority
the frames of these calls in the order in which they were made.
-/

namespace NotifiTransport

def Event.loop? : Event → Option Input
  | .loop i => some i
  | _ => none

/-- The queue and the frame of a `Send` command, unless it is a Pong. -/
def ClientCmd.data? : ClientCmd → Option (Fin 4 × Frame)
  | .send frame priority => if frame.kind = .pong then none else some (priority.toFin, frame)
  | _ => none

/-- What the commands are to send but for Pongs. -/
def dataSends (cs : List ClientCmd) : List (Fin 4 × Frame) := cs.filterMap ClientCmd.data?

@[simp] theorem dataSends_append (cs cs' : List ClientCmd) :
    dataSends (cs ++ cs') = dataSends cs ++ dataSends cs' :=
  List.filterMap_append

theorem dataSends_pongs (n : ℕ) :
    dataSends (List.replicate n (.send ⟨0, .pong, []⟩ .realTime)) = [] := by
  induction n with
  | zero => rfl
  | succ n ih =>
    rw [List.replicate_succ, dataSends, List.filterMap_cons_none rfl]
    exact ih

theorem filter_sendsTo (k : Fin 4) (cs : List ClientCmd) :
    (sendsTo k cs).filter (·.kind != .pong) = substream k (dataSends cs) := by
  rw [sendsTo, substream, dataSends, List.filter_filterMap, List.filterMap_filterMap]
  apply List.filterMap_congr
  intro c _
  cases c with
  | send f p =>
    simp only [ClientCmd.frameFor?, ClientCmd.data?]
    by_cases hf : f.kind = .pong <;> by_cases hp : p.toFin = k <;> simp [hf, hp]
  | _ => rfl

namespace Loop

variable {snow : Snow} {pc : Postcard} {cfg : WsClientConfig} {now : ℕ} {l : Loop snow}
  {i : Input} {r : Loop snow × List Effect}

theorem seals_cases (l : Loop snow) (i : Input) : PingsOnly (l.seals pc i) ∨
    ∃ url noise authBytes, l.phase = .authPayload url noise ∧ i = .authPayload (some authBytes) ∧
      l.seals pc i = sealFrame pc noise none ⟨1, .message, authBytes⟩ := by
  unfold seals
  split
  · next url noise authBytes hp => exact Or.inr ⟨url, noise, authBytes, hp, rfl, rfl⟩
  · refine Or.inl ?_
    unfold MsgLoop.seals
    split
    · exact pingsOnly_sealNext _ _
    · split
      · exact List.forall_mem_nil _
      · exact pingsOnly_sealFrame _
    · exact pingsOnly_sealNext _ _
    · exact List.forall_mem_nil _
  · exact Or.inl (List.forall_mem_nil _)

/-- The payload is asked for once on each connection. -/
theorem step_leaves_authPayload (h : l.step pc cfg now i = some r) (ha : l.accumulator?.isSome)
    (url : Text) (noise : NoiseSession snow) : r.1.phase ≠ .authPayload url noise := by
  cases hp : l.phase <;> simp only [accumulator?, hp, Option.isSome_none, Bool.false_eq_true] at ha
  all_goals simp only [step, hp] at h
  case authPayload url noise =>
    split at h <;> cases h
    unfold onAuthPayload
    split
    · simp [goOnline]
    · dsimp only
      split
      · simp [authFailed, fail, retry]
      · split
        · simp [authFailed, fail, retry]
        · next chunks _ => cases chunks <;> simp [authChunks, goto]
  case authSend url noise rest =>
    split at h <;> cases h
    · cases rest <;> simp [authChunks, goto]
    · simp [authFailed, fail, retry]
  case authAwait url noise acc deadline =>
    split at h <;> cases h
    · unfold onAuthItem
      split
      · split
        · simp [authFailed, fail, retry]
        · simp [goto]
        · split <;> simp [authFailed, fail, retry, goto]
      · simp [authFailed, fail, retry]
    · simp [authFailed, fail, retry]
  case authProcess url noise =>
    split at h <;> cases h
    next outcome => cases outcome <;> simp [onAuthOutcome, goOnline, authFailed, fail, retry, goto]
  case online url m =>
    obtain ⟨⟨_ | m', o⟩, -, rfl⟩ := Option.map_eq_some_iff.mp h <;> simp [goto]

/-- The messages and events that a connection seals are the auth frame, if there is one, and then
those of the commands. -/
theorem conversation_frames {is : List (ℕ × Input)} {tr : List Effect}
    {t : Recorded (Loop snow) (Sealed pc) (Bytes × Bytes)}
    (h : (conversation pc cfg snow).recorded.run (.fresh l) is = some (t, tr)) :
    ∃ auth : Option Bytes, (∀ b, auth = some b → .authPayload (some b) ∈ is.map Prod.snd) ∧
      dataFrames (t.sealed.map (·.frame)) = (auth.map (⟨1, .message, ·⟩)).toList ++
        dataFrames ((fromQueues t.sealed).map Prod.snd) := by
  refine (Mealy.run_induction (P := fun is _ t => (∀ url noise, t.state.phase =
    .authPayload url noise → t.sealed = []) ∧ ∃ auth : Option Bytes,
      (∀ b, auth = some b → .authPayload (some b) ∈ is.map Prod.snd) ∧
      dataFrames (t.sealed.map (·.frame)) = (auth.map (⟨1, .message, ·⟩)).toList ++
        dataFrames ((fromQueues t.sealed).map Prod.snd)) ⟨fun _ _ _ => rfl, none, by simp, rfl⟩
    ?_ h).2
  rintro is tr m x t o - ⟨hnew, auth, ha, hf⟩ hs
  obtain ⟨hst, hsealed, -⟩ := Endpoint.recorded_step.mp hs
  obtain ⟨hc, r, hr, hs', -⟩ := conversation_step.mp hst
  refine ⟨fun url noise hp => absurd (hs' ▸ hp) (step_leaves_authPayload hr hc url noise), ?_⟩
  rw [hsealed]
  have hseals : (conversation pc cfg snow).seals m.state x = m.state.seals pc x.2 := rfl
  rw [hseals, List.map_append, List.map_append, dataFrames_append, fromQueues_append,
    List.map_append, dataFrames_append]
  rcases m.state.seals_cases x.2 with hpings | ⟨url, noise, b, hp, hx, hauth⟩
  · refine ⟨auth, fun b hb => List.mem_append_left _ (ha b hb), ?_⟩
    rw [hf, dataFrames_sealed hpings, List.append_assoc]
  · rw [hnew url noise hp, hauth, fromQueues_sealFrame_none]
    have hcases : sealFrame pc noise none ⟨1, .message, b⟩ = [] ∨ _ := sealFrame_cases ..
    rcases hcases with h | ⟨w, h, hw, -⟩ <;> rw [h]
    · exact ⟨none, by simp, rfl⟩
    · refine ⟨some b, ?_, by simp [hw, dataFrames, Frame.isKeepalive, fromQueues]⟩
      rintro _ ⟨⟩
      exact List.mem_append_right _ (by simp [hx])

end Loop

namespace WsClient

variable {snow : Snow}

/-- The client until the end of its encrypted connection; the callers go on. -/
def conversation (pc : Postcard) (cfg : WsClientConfig) (parses : Text → Bool) (snow : Snow) :
    Endpoint (WsClient snow) Event Output (Sealed pc) (Bytes × Bytes) where
  toMealy := (machine pc cfg parses snow).restrict fun w e =>
    e.loop?.isSome → w.loop.accumulator?.isSome
  seals w e := e.loop?.elim [] (w.loop.seals pc)
  opens w e := e.loop?.elim [] w.loop.opens

/-- The frame that a call puts in the channel. -/
def accepts (cfg : WsClientConfig) (w : WsClient snow) (e : Event) (_ : WsClient snow) :
    List (Fin 4 × Frame) :=
  match e with
  | .sendEvent data priority =>
    if w.loop.alive && w.hasRoom cfg then [(priority.toFin, ⟨0, .event, data⟩)] else []
  | .enqueue i => (w.requests[i]?.map fun r => (r.priority.toFin, ⟨r.id, .message, r.data⟩)).toList
  | _ => []

variable {pc : Postcard} {cfg : WsClientConfig} {parses : Text → Bool} {w w' : WsClient snow}
  {e : Event} {es : List Event} {o tr : List Output}

theorem conversation_step : (conversation pc cfg parses snow).step w e = some (w', o) ↔
    (e.loop?.isSome → w.loop.accumulator?.isSome) ∧ w.step pc cfg parses e = some (w', o) :=
  Mealy.step_restrict

/-- The callers do not show on the connection. -/
theorem step_conversation {u v : Recorded (WsClient snow) (Sealed pc) (Bytes × Bytes)}
    (h : (conversation pc cfg parses snow).recorded.step u e = some (v, o)) :
    ∃ is, is.map Prod.snd = e.loop?.toList ∧
      (Loop.conversation pc cfg snow).recorded.run ⟨u.state.loop, u.sealed, u.opened⟩ is =
        some (⟨v.state.loop, v.sealed, v.opened⟩, o.filterMap Output.loop?) := by
  obtain ⟨hst, hsealed, hopened⟩ := Endpoint.recorded_step.mp h
  obtain ⟨ha, hst⟩ := conversation_step.mp hst
  rcases step_loop_cases hst with ⟨hl, ho, hne⟩ | ⟨i, r, rfl, -, hr, hl, ho⟩
  · have he : e.loop? = none := by
      cases e <;> first | rfl | exact absurd rfl (hne _)
    refine ⟨[], by rw [he]; rfl, ?_⟩
    rw [hsealed, hopened, hl, ho]
    simp [conversation, he, Mealy.run]
  · refine ⟨[(u.state.now, i)], rfl, Mealy.run_cons.mpr ⟨⟨v.state.loop, v.sealed, v.opened⟩, _, [],
      Endpoint.recorded_step.mpr ⟨?_, hsealed, hopened⟩, rfl, (List.append_nil _).symm⟩⟩
    exact Loop.conversation_step.mpr ⟨ha rfl, r, hr, hl, ho⟩

theorem conversation_simulates {u v : Recorded (WsClient snow) (Sealed pc) (Bytes × Bytes)}
    (h : (conversation pc cfg parses snow).recorded.run u es = some (v, tr)) :
    ∃ is, is.map Prod.snd = es.filterMap Event.loop? ∧
      (Loop.conversation pc cfg snow).recorded.run ⟨u.state.loop, u.sealed, u.opened⟩ is =
        some (⟨v.state.loop, v.sealed, v.opened⟩, tr.filterMap Output.loop?) := by
  rw [List.filterMap_eq_flatMap_toList]
  exact Endpoint.recorded_simulation WsClient.loop Output.loop? Prod.snd (·.loop?.toList)
    (fun u e v o hs => step_conversation hs) h

/-- The messages and events received are the first of those whose packets have been opened. -/
theorem conversation_received {w₀ : WsClient snow} {url : Text} {noise : NoiseSession snow}
    {t : Recorded (WsClient snow) (Sealed pc) (Bytes × Bytes)} {ws : List (Sealed pc)}
    (hpc : pc.Lawful) (hl : w₀.loop.phase = .authPayload url noise)
    (h : (conversation pc cfg parses snow).recorded.run (.fresh w₀) es = some (t, tr))
    (hb : PayloadsBelow pc (2 ^ 32) (ws.map (·.frame)))
    (ho : t.opened <+: ws.flatMap Sealed.packets) :
    dataFrames (received (tr.filterMap Output.loop?)) <+: dataFrames (ws.map (·.frame)) := by
  obtain ⟨is, -, hr⟩ := conversation_simulates h
  exact ((Loop.conversation_heard hl hr).le hpc hb ho).filter _

/-- The auth frame of a connection carries what `auth_payload` has returned on it. -/
theorem conversation_frames {w₀ : WsClient snow}
    {t : Recorded (WsClient snow) (Sealed pc) (Bytes × Bytes)}
    (h : (conversation pc cfg parses snow).recorded.run (.fresh w₀) es = some (t, tr)) :
    ∃ auth : Option Bytes, (∀ b, auth = some b → .loop (.authPayload (some b)) ∈ es) ∧
      dataFrames (t.sealed.map (·.frame)) = (auth.map (⟨1, .message, ·⟩)).toList ++
        dataFrames ((fromQueues t.sealed).map Prod.snd) := by
  obtain ⟨is, hi, hr⟩ := conversation_simulates h
  obtain ⟨auth, ha, hframes⟩ := Loop.conversation_frames hr
  refine ⟨auth, fun b hb => ?_, hframes⟩
  have hm := ha b hb
  rw [hi] at hm
  obtain ⟨e, he, hloop⟩ := List.mem_filterMap.mp hm
  cases e <;> cases hloop
  exact he

/-- A command that the loop receives is the first of the channel. -/
theorem queue_take {i : Input} (ho : w.offers i) : w.queue = i.taken ++ (w.take i).queue := by
  cases i with
  | cmd c => exact List.eq_cons_of_mem_head? (by simpa [offers] using ho)
  | _ => rfl

theorem dataSends_trySend (w : WsClient snow) {c : ClientCmd} (hc : c.data? = none) :
    dataSends (w.trySend cfg c).queue = dataSends w.queue := by
  obtain ⟨q, hq, rfl | rfl⟩ := w.trySend_eq cfg c <;> rw [hq]
  rw [dataSends_append, dataSends, dataSends, List.filterMap_cons_none hc]
  exact List.append_nil _

/-- Only `enqueue` puts the frame of a request in the channel. -/
theorem stepRequest_queue {k : ℕ} {r : Request} (he : ∀ i, e ≠ .enqueue i)
    (h : w.stepRequest cfg k r e = some (w', o)) : w'.queue = w.queue := by
  unfold stepRequest at h
  split at h
  · -- register
    split at h <;> cases h
    obtain ⟨q, p, hw⟩ := w.removePending_eq r.id
    unfold register
    rw [hw]
    rfl
  · -- permit
    split at h <;> cases h
    rfl
  · -- enqueue
    exact absurd rfl (he _)
  · -- refuse
    split at h <;> cases h
    rfl
  · -- resolve
    split at h <;> cases h <;> rfl
  · -- expire
    split at h
    · split at h <;> cases h
      rfl
    · cases h
  · -- remove
    split at h <;> cases h
    obtain ⟨q, p, hw⟩ := w.removePending_eq r.id
    rw [hw]
    rfl
  · -- drop
    split at h <;> cases h <;> rfl
  · cases h

/-- Apart from Pongs, the channel grows by what the calls put into it and shrinks by what the loop
takes. -/
theorem step_accepts (h : w.step pc cfg parses e = some (w', o))
    (hc : ∀ c ∈ w.calls, Loop.isControl c) :
    dataSends w.queue ++ w.accepts cfg e w' =
      dataSends (e.loop?.elim [] Input.taken) ++ dataSends w'.queue := by
  cases e <;> simp only [step] at h
  case loop i =>
    obtain ⟨ho, r, -, rfl, -⟩ := stepLoop_eq_some.mp h
    obtain ⟨q, rs, p, hw, n, rfl⟩ := reactAll_eq cfg (w.resume i r.1) r.2
    rw [hw, dataSends_append, dataSends_pongs, List.append_nil, queue_take ho, dataSends_append]
    exact List.append_nil _
  case notify k =>
    split at h <;> cases h
    next c hk =>
    have hdata : c.data? = none := by
      have hcontrol := hc c (List.mem_of_getElem? hk)
      cases c <;> first | rfl | cases hcontrol
    rw [dataSends_trySend _ hdata]
    exact List.append_nil _
  case reconnect | wake =>
    cases h
    rw [dataSends_trySend _ rfl]
    exact List.append_nil _
  case sendEvent data priority =>
    cases h
    simp only [accepts, trySend]
    split
    · rw [dataSends_append]
      rfl
    · exact List.append_nil _
  case enqueue i =>
    split at h
    · next r hr =>
      simp only [stepRequest, Option.ite_none_right_eq_some, Option.some.injEq, Prod.mk.injEq] at h
      obtain ⟨-, rfl, -⟩ := h
      dsimp only
      rw [dataSends_append, accepts, hr]
      rfl
    · cases h
  case register i | permit i | refuse i | resolve i | expire i | remove i | drop i =>
    split at h
    · rw [stepRequest_queue (by simp) h]
      exact List.append_nil _
    · cases h
  case setEndpoint url =>
    cases h
    unfold setEndpoint
    split <;> exact List.append_nil _
  all_goals
    cases h
    exact List.append_nil _

/-- The frames that have been put in the channel are those that the loop has taken and those that
are still in it. -/
theorem run_accepts {w₀ : WsClient snow} {calls : List (Fin 4 × Frame)}
    (hc : ∀ c ∈ w₀.calls, Loop.isControl c)
    (h : ((machine pc cfg parses snow).watch (accepts cfg)).run w₀ es = some (w, calls)) :
    dataSends w₀.queue ++ calls =
      dataSends ((es.filterMap Event.loop?).flatMap Input.taken) ++ dataSends w.queue := by
  refine (Mealy.run_induction (P := fun es calls w => (∀ c ∈ w.calls, Loop.isControl c) ∧
    dataSends w₀.queue ++ calls =
      dataSends ((es.filterMap Event.loop?).flatMap Input.taken) ++ dataSends w.queue)
    ⟨hc, List.append_nil _⟩ ?_ h).2
  rintro es calls w e w' _ - ⟨hcontrol, heq⟩ hs
  obtain ⟨o, hst, rfl⟩ := Mealy.step_watch.mp hs
  refine ⟨step_calls hcontrol hst, ?_⟩
  have htaken : [e].filterMap Event.loop? = e.loop?.toList := by
    cases e <;> rfl
  have hnext := step_accepts hst hcontrol
  calc dataSends w₀.queue ++ (calls ++ w.accepts cfg e w')
    _ = dataSends ((es.filterMap Event.loop?).flatMap Input.taken) ++
          (dataSends w.queue ++ w.accepts cfg e w') := by
      rw [← List.append_assoc, heq, List.append_assoc]
    _ = _ := by
      rw [hnext, List.filterMap_append, List.flatMap_append, dataSends_append, htaken,
        List.append_assoc]
      cases e <;> simp [Event.loop?]

/-- The callers put messages and events in the channel. -/
theorem accepts_data {x : Fin 4 × Frame} (hx : x ∈ w.accepts cfg e w') : ! x.2.isKeepalive := by
  cases e <;> simp only [accepts, List.not_mem_nil] at hx
  case sendEvent data priority =>
    split at hx
    · rw [List.mem_singleton.mp hx]
      rfl
    · cases hx
  case enqueue i =>
    obtain ⟨r, -, rfl⟩ := Option.map_eq_some_iff.mp (Option.mem_toList.mp hx)
    rfl

theorem run_accepts_data {w₀ : WsClient snow} {calls : List (Fin 4 × Frame)}
    (h : ((machine pc cfg parses snow).watch (accepts cfg)).run w₀ es = some (w, calls)) :
    ∀ x ∈ calls, ! x.2.isKeepalive := by
  intro x hx
  obtain ⟨m, e, m', o, hs, ho⟩ := Mealy.run_output h hx
  obtain ⟨_, -, rfl⟩ := Mealy.step_watch.mp hs
  exact accepts_data ho

/-- What waits in the channel of a client, Pongs apart, are messages and events. -/
theorem run_queue_data (h : (machine pc cfg parses snow).run new es = some (w, tr)) :
    ∀ x ∈ dataSends w.queue, ! x.2.isKeepalive := by
  obtain ⟨calls, hw⟩ := Mealy.run_watch (accepts cfg) h
  have heq := run_accepts (by rintro c ⟨⟩) hw
  intro x hx
  apply run_accepts_data hw
  rw [show dataSends (new : WsClient snow).queue = [] from rfl, List.nil_append] at heq
  rw [heq]
  exact List.mem_append_right _ hx

/-- What a connection seals for a priority, Pongs apart, are the first of the frames that were in
the channel at its start and of those that the calls have put there since. -/
theorem conversation_calls {w₀ : WsClient snow} {url : Text} {noise : NoiseSession snow}
    {calls : List (Fin 4 × Frame)} {t : Recorded (WsClient snow) (Sealed pc) (Bytes × Bytes)}
    (hl : w₀.loop.phase = .authPayload url noise) (hc : ∀ c ∈ w₀.calls, Loop.isControl c)
    (h : (conversation pc cfg parses snow).recorded.run (.fresh w₀) es = some (t, tr))
    (hw : ((machine pc cfg parses snow).watch (accepts cfg)).run w₀ es = some (w, calls))
    (k : Fin 4) :
    (queuedIn k t.sealed).filter (·.kind != .pong) <+:
      substream k (dataSends w₀.queue ++ calls) := by
  obtain ⟨is, hi, hr⟩ := conversation_simulates h
  have hflow := (Loop.conversation_flow hl hr k).2.filter (·.kind != .pong)
  have htaken : is.flatMap (·.2.taken) = (es.filterMap Event.loop?).flatMap Input.taken := by
    rw [← hi, List.flatMap_map]
  rw [filter_sendsTo, htaken] at hflow
  rw [run_accepts hc hw, substream_append]
  exact hflow.trans (List.prefix_append _ _)

/-- When the loop waits and the channel is empty but for Pongs, they are all of them. -/
theorem conversation_calls_all {w₀ : WsClient snow} {url : Text} {noise : NoiseSession snow}
    {calls : List (Fin 4 × Frame)} {t : Recorded (WsClient snow) (Sealed pc) (Bytes × Bytes)}
    (hl : w₀.loop.phase = .authPayload url noise) (hc : ∀ c ∈ w₀.calls, Loop.isControl c)
    (h : (conversation pc cfg parses snow).recorded.run (.fresh w₀) es = some (t, tr))
    (hw : ((machine pc cfg parses snow).watch (accepts cfg)).run w₀ es = some (w, calls))
    (hidle : t.state.loop.idle) (hq : dataSends w.queue = []) (k : Fin 4) :
    (queuedIn k t.sealed).filter (·.kind != .pong) =
      substream k (dataSends w₀.queue ++ calls) := by
  obtain ⟨is, hi, hr⟩ := conversation_simulates h
  have hflow := Loop.conversation_idle hl hr hidle k
  have htaken : is.flatMap (·.2.taken) = (es.filterMap Event.loop?).flatMap Input.taken := by
    rw [← hi, List.flatMap_map]
  rw [run_accepts hc hw, hq, List.append_nil, ← filter_sendsTo, ← htaken, hflow]

section Streams

variable {w₀ : WsClient snow} {url : Text} {noise : NoiseSession snow} {es₀ : List Event}
  {tr₀ : List Output} {calls : List (Fin 4 × Frame)}
  {t : Recorded (WsClient snow) (Sealed pc) (Bytes × Bytes)}

theorem filter_streams (h₀ : (machine pc cfg parses snow).run new es₀ = some (w₀, tr₀))
    (hw : ((machine pc cfg parses snow).watch (accepts cfg)).run w₀ es = some (w, calls))
    (k : Fin 4) : (substream k (dataSends w₀.queue ++ calls)).filter (! ·.isKeepalive) =
      substream k (dataSends w₀.queue ++ calls) := by
  rw [List.filter_eq_self]
  intro f hf
  rcases List.mem_append.mp (mem_substream.mp hf) with hx | hx
  · exact run_queue_data h₀ _ hx
  · exact run_accepts_data hw _ hx

/-- The messages and events from the queues, with their queues. -/
theorem map_labelled (ws : List (Sealed pc)) :
    ((fromQueues ws).filter (! ·.2.isKeepalive)).map Prod.snd =
      dataFrames ((fromQueues ws).map Prod.snd) := by
  rw [dataFrames, List.filter_map]
  rfl

theorem substream_labelled (k : Fin 4) (ws : List (Sealed pc)) :
    substream k ((fromQueues ws).filter (! ·.2.isKeepalive)) =
      ((queuedIn k ws).filter (·.kind != .pong)).filter (! ·.isKeepalive) := by
  rw [← filter_substream (! Frame.isKeepalive ·), substream_fromQueues, List.filter_filter]
  apply List.filter_congr
  intro f _
  cases hk : f.kind <;> simp [Frame.isKeepalive, hk]

/-- The messages and events of the commands that a connection seals are a merge of those that its
callers have queued, one stream for each priority. -/
theorem conversation_merges
    (h₀ : (machine pc cfg parses snow).run new es₀ = some (w₀, tr₀))
    (hl : w₀.loop.phase = .authPayload url noise)
    (h : (conversation pc cfg parses snow).recorded.run (.fresh w₀) es = some (t, tr))
    (hw : ((machine pc cfg parses snow).watch (accepts cfg)).run w₀ es = some (w, calls)) :
    Merges (fun k => substream k (dataSends w₀.queue ++ calls))
      (dataFrames ((fromQueues t.sealed).map Prod.snd)) := by
  refine ⟨_, map_labelled t.sealed, fun k => ?_⟩
  dsimp only
  rw [substream_labelled, ← filter_streams h₀ hw]
  exact (conversation_calls hl (run_calls h₀) h hw k).filter _

theorem conversation_merges_all
    (h₀ : (machine pc cfg parses snow).run new es₀ = some (w₀, tr₀))
    (hl : w₀.loop.phase = .authPayload url noise)
    (h : (conversation pc cfg parses snow).recorded.run (.fresh w₀) es = some (t, tr))
    (hw : ((machine pc cfg parses snow).watch (accepts cfg)).run w₀ es = some (w, calls))
    (hidle : t.state.loop.idle) (hq : dataSends w.queue = []) :
    MergesAll (fun k => substream k (dataSends w₀.queue ++ calls))
      (dataFrames ((fromQueues t.sealed).map Prod.snd)) := by
  refine ⟨_, map_labelled t.sealed, fun k => ?_⟩
  rw [substream_labelled, conversation_calls_all hl (run_calls h₀) h hw hidle hq,
    filter_streams h₀ hw]

end Streams

/-- The `i`-th request had the value `data` in `w₀`, or `tr` has received it in a response. -/
def Sourced (w₀ w : WsClient snow) (tr : List Output) (i : ℕ) (data : Bytes) : Prop :=
  (∃ r, w₀.requests[i]? = some r ∧ r.rx = .value data) ∨
    ∃ r, w.requests[i]? = some r ∧
      ⟨r.id, .message, data⟩ ∈ received (tr.filterMap Output.loop?)

theorem Sourced.step {w₀ : WsClient snow} {i : ℕ} {data : Bytes} (h : Sourced w₀ w tr i data)
    (hs : w.step pc cfg parses e = some (w', o)) : Sourced w₀ w' (tr ++ o) i data := by
  rcases h with h | ⟨r, hr, hf⟩
  · exact Or.inl h
  · obtain ⟨r', hr', hfol, -⟩ := step_request hs hr
    refine Or.inr ⟨r', hr', ?_⟩
    rw [List.filterMap_append, received_append, hfol.1]
    exact List.mem_append_left _ hf

/-- A request gets no value but those of the responses received. -/
theorem step_sourced {w₀ : WsClient snow} (hw : Routed w)
    (hv : ∀ i (r : Request) data, w.requests[i]? = some r → r.rx = .value data →
      Sourced w₀ w tr i data)
    (hs : w.step pc cfg parses e = some (w', o)) {i : ℕ} {r' : Request} {data : Bytes}
    (hr' : w'.requests[i]? = some r') (hx : r'.rx = .value data) :
    Sourced w₀ w' (tr ++ o) i data := by
  by_cases hi : i < w.requests.length
  · obtain ⟨r, hr⟩ : ∃ r, w.requests[i]? = some r := ⟨_, List.getElem?_eq_getElem hi⟩
    obtain ⟨r₁, hr₁, hfol, hval⟩ := step_request hs hr
    rw [hr'] at hr₁
    cases hr₁
    rcases hval data hx with hold | ⟨f, hf, hd, rfl⟩
    · exact (hv i r data hr hold).step hs
    · obtain ⟨q, hq, hid, -⟩ := hw.pending f.id i hd.lookup
      rw [hr] at hq
      cases hq
      refine Or.inr ⟨r', hr', ?_⟩
      rw [List.filterMap_append, received_append, hfol.1, hid, ← hd.response.1]
      exact List.mem_append_right _ (List.mem_filterMap.mpr ⟨_, mem_loop?.mpr hf, rfl⟩)
  · -- the request has just been drawn
    rcases step_length hs with hl | ⟨data', priority, rfl⟩
    · exact absurd (hl ▸ (List.getElem?_eq_some_iff.mp hr').1) hi
    · rcases draw_request hr' with hr' | ⟨-, rfl⟩
      · exact absurd (List.getElem?_eq_some_iff.mp hr').1 hi
      · cases hx

/-- A request returns `Ok` with the data of a response that was received under its id. -/
theorem run_sourced {w₀ : WsClient snow} (hw₀ : Routed w₀)
    (h : (machine pc cfg parses snow).run w₀ es = some (w, tr)) :
    ∀ i data, .completed i (.ok data) ∈ tr → Sourced w₀ w tr i data := by
  refine (Mealy.run_induction (P := fun _ tr w => Routed w ∧
    (∀ i (r : Request) data, w.requests[i]? = some r → r.rx = .value data →
      Sourced w₀ w tr i data) ∧
    ∀ i data, .completed i (.ok data) ∈ tr → Sourced w₀ w tr i data)
    ⟨hw₀, fun i r data hr hx => Or.inl ⟨r, hr, hx⟩, by simp⟩ ?_ h).2.2
  rintro es tr w e w' o - ⟨hw, hv, hc⟩ hs
  refine ⟨hw.step hs, fun i r data hr hx => step_sourced hw hv hs hr hx, ?_⟩
  intro i data hm
  rcases List.mem_append.mp hm with hm | hm
  · exact (hc i data hm).step hs
  · obtain ⟨-, r, -, hr, -, -, -, hx⟩ := step_completed (x := .ok data) hs hm
    exact (hv i r data hr (hx data rfl)).step hs

end WsClient

end NotifiTransport

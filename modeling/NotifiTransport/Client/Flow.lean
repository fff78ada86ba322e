import NotifiTransport.Client.Attempts
import NotifiTransport.Client.Conversation
import NotifiTransport.Client.Endpoint

/-! # From the commands to the wire

In every run of a connection, errors included, the frames of the commands that the loop has taken
are for each priority those that were sealed and then those that wait in the scheduler. What is
written to the socket are packets of sealed frames, in their order.
-/

namespace NotifiTransport

def Effect.message? : Effect → Option WsMessage
  | .send m => some m
  | _ => none

/-- The packets of a sealed frame as messages of the socket. -/
def Sealed.wsMessages {pc : Postcard} (w : Sealed pc) : List WsMessage :=
  w.packets.map fun p => .binary p.1

theorem wsMessages_sealFrame {pc : Postcard} {snow : Snow} {noise noise' : NoiseSession snow}
    {f : Frame} {encoded : Bytes} {packets : List Bytes} (queue : Option (Fin 4))
    (he : encodeFrame pc f = .ok encoded)
    (hs : noise.encryptChunked encoded = (noise', .ok packets)) :
    (sealFrame pc noise queue f).flatMap Sealed.wsMessages = packets.map .binary := by
  rw [← wirePackets_sealFrame queue he hs, wirePackets, List.map_map, List.map_flatMap]
  rfl

namespace MsgLoop

variable {snow : Snow} {pc : Postcard} {cfg : WsClientConfig} {now : ℕ} {m m' : MsgLoop snow}
  {i : Input} {r : Option (MsgLoop snow) × List Effect} {k : Fin 4}

/-- From a queue of the scheduler with the frames `taken` for it, `sealed` have left; a loop that
has returned has lost the rest. -/
def Moves (k : Fin 4) (m : MsgLoop snow) (taken sealed : List Frame) :
    Option (MsgLoop snow) → Prop
  | some m' => m.scheduler.queues k ++ taken = sealed ++ m'.scheduler.queues k
  | none => sealed <+: m.scheduler.queues k ++ taken

theorem moves_same (h : m'.scheduler = m.scheduler) : Moves k m [] [] (some m') := by
  rw [Moves, h, List.append_nil, List.nil_append]

theorem moves_pump (m : MsgLoop snow) :
    Moves k m [] (queuedIn k (sealNext pc m.noise m.scheduler)) (m.pump pc).1 := by
  rcases m.pump_cases pc with
    ⟨scheduler, hpop, h⟩ | h | ⟨f, scheduler, _, noise, chunks, hpop, he, hs, h⟩ <;> rw [h]
  · exact (List.append_nil _).trans (queues_of_pop_none hpop m.noise k)
  · rw [Moves, List.append_nil]
    exact sealNext_le m.noise m.scheduler k
  · have hq := queues_of_pop hpop he hs k
    cases chunks <;> exact (List.append_nil _).trans hq

theorem moves_onHeartbeat (m : MsgLoop snow) : Moves k m [] [] (m.onHeartbeat pc cfg now).1 := by
  rcases m.onHeartbeat_cases pc cfg now with
    h | h | ⟨_, _, _, -, -, ⟨_, -, h⟩ | ⟨chunks, -, h⟩⟩ <;> rw [h]
  · exact moves_same rfl
  · exact moves_same rfl
  · exact moves_same rfl
  · cases chunks <;> exact moves_same rfl

/-- A `Send` command adds its frame to the queue of its priority. -/
theorem queues_enqueue (s : WfqScheduler Frame) (f : Frame) (p : MessagePriority) :
    (s.enqueue f p).queues k = s.queues k ++ sendsTo k [.send f p] := by
  by_cases hk : p.toFin = k
  · subst hk
    simp [WfqScheduler.enqueue, sendsTo, ClientCmd.frameFor?]
  · have hne := Ne.symm hk
    simp [WfqScheduler.enqueue, sendsTo, ClientCmd.frameFor?, hk, Function.update_of_ne hne]

theorem Moves.enqueued {f : Frame} {p : MessagePriority} {sealed : List Frame}
    {t : Option (MsgLoop snow)}
    (h : Moves k { m with scheduler := m.scheduler.enqueue f p } [] sealed t) :
    Moves k m (sendsTo k [.send f p]) sealed t := by
  cases t <;> simpa only [Moves, queues_enqueue, List.append_nil] using h

theorem step_moves (h : m.step pc cfg now i = some r) :
    Moves k m (sendsTo k i.taken) (queuedIn k (m.seals pc i)) r.1 := by
  cases hp : m.phase <;> simp only [step, hp] at h
  case select =>
    split at h <;> cases h <;> simp only [seals, hp]
    · exact List.nil_prefix
    · unfold onPacket
      dsimp only
      split
      · exact List.nil_prefix
      · exact moves_same rfl
    · exact List.nil_prefix
    · next c =>
      cases c with
      | send f p => exact (moves_pump { m with scheduler := m.scheduler.enqueue f p }).enqueued
      | endpointChanged | reconnect | wakeUp => exact moves_same rfl
    · have hs : queuedIn k (if m.waitingForPong then [] else sealFrame pc m.noise none pingFrame) =
          [] := by
        split
        · rfl
        · exact queuedIn_sealFrame_none _ _ _
      rw [hs]
      exact moves_onHeartbeat m
  case writing f rest =>
    split at h <;> cases h <;> simp only [seals, hp]
    · cases rest <;> exact moves_same rfl
    · exact List.nil_prefix
  case draining disconnect =>
    split at h <;> cases h
    · next c =>
      simp only [seals, hp]
      cases c with
      | send f p => exact (moves_same (k := k) rfl).enqueued
      | endpointChanged | reconnect | wakeUp => exact moves_same rfl
    · cases disconnect <;> simp only [seals, hp]
      · exact moves_pump m
      · exact moves_same rfl
  case drainClosing =>
    split at h <;> cases h
    simp only [seals, hp]
    exact moves_same rfl
  case pinging rest =>
    split at h <;> cases h <;> simp only [seals, hp]
    · cases rest <;> exact moves_same rfl
    · exact moves_same rfl
  case closing =>
    split at h <;> cases h
    simp only [seals, hp]
    exact List.nil_prefix

/-- The chunks of the frame on its way that are still to be sent. -/
def unsent (m : MsgLoop snow) : List WsMessage := m.unwritten.2.map .binary

theorem unsent_select (hp : m.phase = .select) : m.unsent = [] := by
  simp only [unsent, unwritten, hp, List.map_nil]

/-- What is written by `r` and what is left to be written is part of `available`. -/
def Sends (available : List WsMessage) (r : Option (MsgLoop snow) × List Effect) : Prop :=
  (r.2.filterMap Effect.message? ++ r.1.elim [] unsent).Sublist available

theorem sends_nothing {available : List WsMessage} (ho : r.2.filterMap Effect.message? = [])
    (hu : r.1.elim [] unsent = []) : Sends available r := by
  rw [Sends, ho, hu]
  exact List.nil_sublist _

theorem sends_writeChunks (m : MsgLoop snow) (f : Frame) (cs : List Bytes) :
    Sends (cs.map .binary) (some (m.writeChunks f cs).1, (m.writeChunks f cs).2) := by
  cases cs <;> exact List.Sublist.refl _

theorem sends_pingChunks (m : MsgLoop snow) (cs : List Bytes) :
    Sends (cs.map .binary) (some (m.pingChunks cfg now cs).1, (m.pingChunks cfg now cs).2) := by
  cases cs <;> exact List.Sublist.refl _

theorem sends_pump (m : MsgLoop snow) :
    Sends ((sealNext pc m.noise m.scheduler).flatMap Sealed.wsMessages) (m.pump pc) := by
  rcases m.pump_cases pc with
    ⟨scheduler, hpop, h⟩ | h | ⟨f, scheduler, _, noise, chunks, hpop, he, hs, h⟩ <;> rw [h]
  · exact sends_nothing rfl rfl
  · exact sends_nothing rfl rfl
  · rw [sealNext, hpop, wsMessages_sealFrame _ he hs]
    exact sends_writeChunks { m with scheduler, noise } f chunks

theorem sends_onHeartbeat (m : MsgLoop snow) :
    Sends ((sealFrame pc m.noise none pingFrame).flatMap Sealed.wsMessages)
      (m.onHeartbeat pc cfg now) := by
  rcases m.onHeartbeat_cases pc cfg now with
    h | h | ⟨_, noise, _, he, hs, ⟨_, -, h⟩ | ⟨chunks, rfl, h⟩⟩ <;> rw [h]
  · exact sends_nothing rfl rfl
  · exact sends_nothing rfl rfl
  · exact sends_nothing rfl rfl
  · rw [wsMessages_sealFrame _ he hs]
    exact sends_pingChunks { m with noise } chunks

theorem sends_onPacket (m : MsgLoop snow) (hp : m.phase = .select) (data : Bytes)
    (available : List WsMessage) : Sends available (m.onPacket pc cfg now data) := by
  unfold onPacket
  dsimp only
  split
  · exact sends_nothing rfl rfl
  · next f _ =>
    apply sends_nothing
    · cases f <;> rfl
    · exact unsent_select hp

theorem step_sends (h : m.step pc cfg now i = some r) :
    Sends (m.unsent ++ (m.seals pc i).flatMap Sealed.wsMessages) r := by
  cases hp : m.phase <;> simp only [step, hp] at h
  case select =>
    split at h <;> cases h <;> simp only [seals, unsent, unwritten, hp]
    · exact sends_nothing rfl rfl
    · exact sends_onPacket m hp _ _
    · exact sends_nothing rfl rfl
    · next c =>
      cases c with
      | send f p => exact sends_pump { m with scheduler := m.scheduler.enqueue f p }
      | endpointChanged | reconnect => exact sends_nothing rfl rfl
      | wakeUp => exact sends_nothing rfl (unsent_select hp)
    · rcases hw : m.waitingForPong
      · exact sends_onHeartbeat m
      · rw [onHeartbeat, hw]
        exact sends_nothing rfl rfl
  case writing f rest =>
    split at h <;> cases h <;> simp only [seals, unsent, unwritten, hp]
    · rw [List.flatMap_nil, List.append_nil]
      exact sends_writeChunks m f rest
    · exact sends_nothing rfl rfl
  case draining disconnect =>
    split at h <;> cases h
    · next c => cases c <;> exact sends_nothing rfl rfl
    · cases disconnect <;> simp only [seals, unsent, unwritten, hp]
      · exact sends_pump m
      · exact sends_nothing rfl rfl
  case drainClosing =>
    split at h <;> cases h
    exact sends_nothing rfl rfl
  case pinging rest =>
    split at h <;> cases h <;> simp only [seals, unsent, unwritten, hp]
    · rw [List.flatMap_nil, List.append_nil]
      exact sends_pingChunks m rest
    · exact sends_nothing rfl rfl
  case closing =>
    split at h <;> cases h
    exact sends_nothing rfl rfl

theorem smooth_pump {m' : MsgLoop snow} (h : (m.pump pc).1 = some m') : m'.Smooth := by
  rcases m.pump_cases pc with
    ⟨scheduler, hpop, hm⟩ | hm | ⟨f, scheduler, _, noise, chunks, -, -, -, hm⟩ <;>
      rw [hm] at h <;> cases h
  · exact (WfqScheduler.pop_none hpop).2
  · cases chunks
    · rfl
    · trivial

theorem smooth_pingChunks (he : m.scheduler.isEmpty = true) (cs : List Bytes) :
    (m.pingChunks cfg now cs).1.Smooth := by
  cases cs <;> exact he

/-- In its `select!` a loop that has not closed the socket has emptied its scheduler. -/
theorem step_smooth (hm : m.closed = true ∨ m.Smooth) (h : m.step pc cfg now i = some r) :
    ∀ m', r.1 = some m' → m'.closed = true ∨ m'.Smooth := by
  intro m' hm'
  by_cases hc : m.closed = true
  · exact Or.inl (step_staysClosed h m' hm' hc)
  have hs := hm.resolve_left hc
  cases hp : m.phase <;> simp only [step, hp] at h <;> simp only [Smooth, hp] at hs
  case select =>
    split at h <;> cases h
    · cases hm'
    · unfold onPacket at hm'
      dsimp only at hm'
      split at hm' <;> cases hm'
      refine Or.inr ?_
      simpa only [Smooth, hp] using hs
    · cases hm'
    · next c =>
      cases c with
      | send f p => exact Or.inr (smooth_pump hm')
      | endpointChanged | reconnect =>
        cases hm'
        exact Or.inl rfl
      | wakeUp =>
        cases hm'
        exact Or.inr (by simpa only [Smooth, hp] using hs)
    · rcases m.onHeartbeat_cases pc cfg now with
        ho | ho | ⟨_, noise, _, -, -, ⟨_, -, ho⟩ | ⟨chunks, -, ho⟩⟩ <;> rw [ho] at hm' <;> cases hm'
      · exact Or.inl rfl
      · exact Or.inr hs
      · exact Or.inr hs
      · exact Or.inr (smooth_pingChunks (m := { m with noise := noise }) hs chunks)
  case writing f rest =>
    split at h <;> cases h <;> cases hm'
    cases rest
    · exact Or.inr rfl
    · exact Or.inr trivial
  case draining disconnect =>
    subst hs
    split at h <;> cases h
    · next c =>
      cases c with
      | endpointChanged | reconnect =>
        cases hm'
        exact Or.inl rfl
      | send | wakeUp =>
        cases hm'
        exact Or.inr rfl
    · exact Or.inr (smooth_pump hm')
  case pinging rest =>
    split at h <;> cases h <;> cases hm'
    · exact Or.inr (smooth_pingChunks hs rest)
    · exact Or.inr hs
  case closing =>
    split at h <;> cases h
    cases hm'

end MsgLoop

namespace Loop

variable {snow : Snow} {pc : Postcard} {cfg : WsClientConfig} {now : ℕ} {l : Loop snow}
  {i : Input} {r : Loop snow × List Effect} {k : Fin 4}

/-- The frames of queue `k` of the scheduler. -/
def waiting (k : Fin 4) (l : Loop snow) : List Frame :=
  match l.phase with
  | .online _ m => m.scheduler.queues k
  | _ => []

/-- Before the message loop no command is taken. -/
theorem step_auth (h : l.step pc cfg now i = some r) (ha : l.accumulator?.isSome)
    (ho : ∀ url m, l.phase ≠ .online url m) :
    i.taken = [] ∧ queuedIn k (l.seals pc i) = [] ∧ r.1.waiting k = [] := by
  cases hp : l.phase <;> simp only [accumulator?, hp, Option.isSome_none, Bool.false_eq_true] at ha
  case online url m => exact absurd hp (ho url m)
  all_goals simp only [step, hp] at h
  case authPayload url noise =>
    split at h <;> cases h
    next p =>
    refine ⟨rfl, ?_, ?_⟩
    · cases p <;> simp only [seals, hp]
      · rfl
      · exact queuedIn_sealFrame_none _ _ _
    · unfold onAuthPayload
      split
      · rfl
      · dsimp only
        split
        · rfl
        · split
          · rfl
          · next chunks _ => cases chunks <;> rfl
  case authSend url noise rest =>
    split at h <;> cases h <;> simp only [seals, hp]
    · cases rest <;> exact ⟨rfl, rfl, rfl⟩
    · exact ⟨rfl, rfl, rfl⟩
  case authAwait url noise acc deadline =>
    split at h <;> cases h <;> simp only [seals, hp]
    · refine ⟨rfl, rfl, ?_⟩
      unfold onAuthItem
      split
      · split
        · rfl
        · rfl
        · split <;> rfl
      · rfl
    · exact ⟨rfl, rfl, rfl⟩
  case authProcess url noise =>
    split at h <;> cases h
    next outcome =>
    simp only [seals, hp]
    cases outcome <;> exact ⟨rfl, rfl, rfl⟩

/-- What leaves the scheduler of a connection is sealed, or lost with the connection. -/
theorem step_waiting (h : l.step pc cfg now i = some r) (ha : l.accumulator?.isSome) :
    (r.1.accumulator?.isSome →
      l.waiting k ++ sendsTo k i.taken = queuedIn k (l.seals pc i) ++ r.1.waiting k) ∧
    queuedIn k (l.seals pc i) <+: l.waiting k ++ sendsTo k i.taken := by
  by_cases ho : ∃ url m, l.phase = .online url m
  · obtain ⟨url, m, hp⟩ := ho
    simp only [step, hp] at h
    obtain ⟨⟨t, o⟩, hs, rfl⟩ := Option.map_eq_some_iff.mp h
    have hm := MsgLoop.step_moves (k := k) hs
    have hw : l.waiting k = m.scheduler.queues k := by simp only [waiting, hp]
    have hseals : l.seals pc i = m.seals pc i := by simp only [seals, hp]
    rw [hw, hseals]
    rcases t with _ | m'
    · exact ⟨by simp [accumulator?, goto], hm⟩
    · refine ⟨fun _ => hm, ?_⟩
      rw [show m.scheduler.queues k ++ sendsTo k i.taken = _ from hm]
      exact List.prefix_append _ _
  · push Not at ho
    obtain ⟨ht, hs, hw⟩ := step_auth (k := k) h ha ho
    have hl : l.waiting k = [] := by
      unfold waiting
      split
      · next url m hp => exact absurd hp (ho url m)
      · rfl
    rw [ht, hs, hw, hl]
    exact ⟨fun _ => rfl, List.nil_prefix⟩

/-- The frames of the commands that a connection has taken are sealed in their order within each
priority; while it lasts, what is not sealed yet waits in the scheduler. -/
theorem conversation_flow {is : List (ℕ × Input)} {tr : List Effect}
    {t : Recorded (Loop snow) (Sealed pc) (Bytes × Bytes)} {url : Text}
    {noise : NoiseSession snow} (hl : l.phase = .authPayload url noise)
    (h : (conversation pc cfg snow).recorded.run (.fresh l) is = some (t, tr)) (k : Fin 4) :
    (t.state.accumulator?.isSome → sendsTo k (is.flatMap (·.2.taken)) =
      queuedIn k t.sealed ++ t.state.waiting k) ∧
    queuedIn k t.sealed <+: sendsTo k (is.flatMap (·.2.taken)) := by
  refine Mealy.run_induction (P := fun is _ t => (t.state.accumulator?.isSome →
    sendsTo k (is.flatMap (·.2.taken)) = queuedIn k t.sealed ++ t.state.waiting k) ∧
    queuedIn k t.sealed <+: sendsTo k (is.flatMap (·.2.taken))) ?_ ?_ h
  · refine ⟨fun _ => ?_, List.prefix_refl _⟩
    simp only [Recorded.fresh, waiting, hl]
    rfl
  · rintro is tr m x t o - ⟨hgo, -⟩ hs
    obtain ⟨hst, hsealed, -⟩ := Endpoint.recorded_step.mp hs
    obtain ⟨ha, r, hr, hs', -⟩ := conversation_step.mp hst
    obtain ⟨hstep, hpre⟩ := step_waiting (k := k) hr ha
    have htaken : sendsTo k ((is ++ [x]).flatMap (·.2.taken)) =
        queuedIn k m.sealed ++ (m.state.waiting k ++ sendsTo k x.2.taken) := by
      rw [List.flatMap_append, sendsTo, List.filterMap_append, ← List.append_assoc, ← hgo ha]
      simp [sendsTo]
    rw [htaken, hsealed, queuedIn_append, hs']
    refine ⟨fun hc => ?_, List.prefix_append_right_inj _ |>.mpr hpre⟩
    rw [hstep hc, List.append_assoc]
    rfl

/-- The message loop waits in its `select!`, and has not closed the socket. -/
def idle (l : Loop snow) : Bool :=
  match l.phase with
  | .online _ m => decide (m.phase = .select) && !m.closed
  | _ => false

theorem idle_iff : l.idle ↔
    ∃ url m, l.phase = .online url m ∧ m.phase = .select ∧ m.closed = false := by
  unfold idle
  split
  · next url m hp => simp [hp]
  · next hn => simpa using fun url m hp => absurd hp (hn url m)

/-- Once all commands have been taken, a loop that waits has sealed all their frames. -/
theorem conversation_idle {is : List (ℕ × Input)} {tr : List Effect}
    {t : Recorded (Loop snow) (Sealed pc) (Bytes × Bytes)} {url : Text}
    {noise : NoiseSession snow} (hl : l.phase = .authPayload url noise)
    (h : (conversation pc cfg snow).recorded.run (.fresh l) is = some (t, tr))
    (hi : t.state.idle) (k : Fin 4) :
    sendsTo k (is.flatMap (·.2.taken)) = queuedIn k t.sealed := by
  have hsmooth : ∀ url m, t.state.phase = .online url m → m.closed = true ∨ m.Smooth := by
    refine Mealy.run_invariant (P := fun t : Recorded (Loop snow) (Sealed pc) (Bytes × Bytes) =>
      ∀ url m, t.state.phase = .online url m → m.closed = true ∨ m.Smooth) ?_ h ?_
    · intro u x t o hu hs url m hp
      obtain ⟨hst, -, -⟩ := Endpoint.recorded_step.mp hs
      obtain ⟨-, r, hr, hs', -⟩ := conversation_step.mp hst
      rw [hs'] at hp
      rcases step_toOnline hr hp with ⟨m₀, s, hm₀, hstep, hs₀⟩ | ⟨noise, rfl⟩
      · exact MsgLoop.step_smooth (hu url m₀ hm₀) hstep m hs₀
      · cases hp
        exact Or.inr rfl
    · intro url' m hp
      rw [Recorded.fresh, hl] at hp
      cases hp
  obtain ⟨url, m, hp, hselect, hopen⟩ := idle_iff.mp hi
  have hempty : m.scheduler.isEmpty = true := by
    have hm := (hsmooth url m hp).resolve_left (by rw [hopen]; exact Bool.false_ne_true)
    simpa only [MsgLoop.Smooth, hselect] using hm
  have hflow := (conversation_flow hl h k).1 (by rw [accumulator?, hp]; rfl)
  have hw : t.state.waiting k = [] := by
    simp only [waiting, hp]
    exact WfqScheduler.isEmpty_iff.mp hempty k
  rw [hflow, hw, List.append_nil]

/-- The chunks on their way that are still to be sent. -/
def unsent (l : Loop snow) : List WsMessage :=
  match l.phase with
  | .authSend _ _ rest => rest.map .binary
  | .online _ m => m.unsent
  | _ => []

/-- What is written by `r` and what is left to be written is part of `available`. -/
def Sends (available : List WsMessage) (r : Loop snow × List Effect) : Prop :=
  (r.2.filterMap Effect.message? ++ r.1.unsent).Sublist available

theorem sends_nothing {available : List WsMessage} (ho : r.2.filterMap Effect.message? = [])
    (hu : r.1.unsent = []) : Sends available r := by
  rw [Sends, ho, hu]
  exact List.nil_sublist _

theorem sends_authChunks (l : Loop snow) (url : Text) (noise : NoiseSession snow)
    (cs : List Bytes) : Sends (cs.map .binary) (l.authChunks cfg now url noise cs) := by
  cases cs <;> exact List.Sublist.refl _

theorem sends_onAuthPayload (l : Loop snow) (url : Text) (noise : NoiseSession snow)
    (authBytes : Bytes) :
    Sends ((sealFrame pc noise none ⟨1, .message, authBytes⟩).flatMap Sealed.wsMessages)
      (l.onAuthPayload pc cfg now url noise (some authBytes)) := by
  simp only [onAuthPayload]
  split
  · exact sends_nothing rfl rfl
  · next encoded he =>
    split
    · exact sends_nothing rfl rfl
    · next hs =>
      rw [wsMessages_sealFrame _ he hs]
      exact sends_authChunks l url _ _

theorem step_sends (h : l.step pc cfg now i = some r) (ha : l.accumulator?.isSome) :
    Sends (l.unsent ++ (l.seals pc i).flatMap Sealed.wsMessages) r := by
  cases hp : l.phase <;> simp only [accumulator?, hp, Option.isSome_none, Bool.false_eq_true] at ha
  all_goals simp only [step, hp] at h
  case authPayload url noise =>
    split at h <;> cases h
    next p =>
    simp only [seals, unsent, hp]
    cases p with
    | none => exact sends_nothing rfl rfl
    | some authBytes => exact sends_onAuthPayload l url noise authBytes
  case authSend url noise rest =>
    split at h <;> cases h <;> simp only [seals, unsent, hp]
    · rw [List.flatMap_nil, List.append_nil]
      exact sends_authChunks l url noise rest
    · exact sends_nothing rfl rfl
  case authAwait url noise acc deadline =>
    split at h <;> cases h
    · unfold onAuthItem
      split
      · split
        · exact sends_nothing rfl rfl
        · exact sends_nothing rfl rfl
        · split <;> exact sends_nothing rfl rfl
      · exact sends_nothing rfl rfl
    · exact sends_nothing rfl rfl
  case authProcess url noise =>
    split at h <;> cases h
    next outcome => cases outcome <;> exact sends_nothing rfl rfl
  case online url m =>
    obtain ⟨⟨t, o⟩, hs, rfl⟩ := Option.map_eq_some_iff.mp h
    have hm := MsgLoop.step_sends hs
    simp only [seals, unsent, hp]
    cases t <;> exact hm

/-- Whatever is written on a connection after the handshake is a packet of a sealed frame; the
packets go out in the order in which they were encrypted, and none of them twice. -/
theorem conversation_written {is : List (ℕ × Input)} {tr : List Effect}
    {t : Recorded (Loop snow) (Sealed pc) (Bytes × Bytes)} {url : Text}
    {noise : NoiseSession snow} (hl : l.phase = .authPayload url noise)
    (h : (conversation pc cfg snow).recorded.run (.fresh l) is = some (t, tr)) :
    (tr.filterMap Effect.message? ++ t.state.unsent).Sublist
      (t.sealed.flatMap Sealed.wsMessages) := by
  refine Endpoint.recorded_written unsent Effect.message? Sealed.wsMessages ?_ ?_ rfl h
  · intro l x l' o hs
    obtain ⟨ha, r, hr, rfl, rfl⟩ := conversation_step.mp hs
    exact step_sends hr ha
  · simp only [Recorded.fresh, unsent, hl]

end Loop

end NotifiTransport

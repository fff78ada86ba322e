import NotifiTransport.Client.Calls
import NotifiTransport.Server.Calls
import NotifiTransport.System.Handshake
import NotifiTransport.System.Speaker

/-! # The client and the server as sides of a connection

The client's loop from the end of its handshake and a session of the server take their turns on a
socket as `Turn` says.
-/

namespace NotifiTransport

/-- A send has not failed. -/
def Input.works : Input → Bool
  | .sent (.error _) => false
  | _ => true

def SessionInput.works : SessionInput → Bool
  | .sent (.error _) => false
  | _ => true

variable {pc : Postcard} {snow : Snow}

/-- The packets of a sealed frame are those of one payload. -/
theorem packets_sealFrame {noise noise' : NoiseSession snow} {f : Frame} {encoded : Bytes}
    {packets : List Bytes} (queue : Option (Fin 4)) (he : encodeFrame pc f = .ok encoded)
    (hs : noise.encryptChunked encoded = (noise', .ok packets)) :
    (sealFrame pc noise queue f).flatMap Sealed.packets =
      packets.zip (pieces maxChunkPlain encoded) := by
  unfold sealFrame
  split
  · next h => rw [he] at h; cases h
  · next h =>
    rw [he] at h
    cases h
    split
    · next h' => rw [hs] at h'; cases h'
    · next h' =>
      rw [hs] at h'
      cases h'
      exact List.flatMap_singleton _ _

theorem turn_sealFrame {noise noise' : NoiseSession snow} {f : Frame} {encoded : Bytes}
    {cs : List Bytes} {w u : List Message} (queue : Option (Fin 4))
    (he : encodeFrame pc f = .ok encoded) (hs : noise.encryptChunked encoded = (noise', .ok cs))
    (hw : w ++ u = cs.map .binary) :
    Turn (some noise) [] ⟨(sealFrame pc noise queue f).flatMap Sealed.packets, [], w, none⟩
      (some noise') u := by
  rw [packets_sealFrame queue he hs]
  exact .seals hs hw

/-- The packet that is read is opened, unless it cannot be decrypted. -/
theorem openPacket_of_ok {noise noise' : NoiseSession snow} {data p : Bytes}
    (h : noise.readMessage data data.length = (noise', .ok p)) :
    openPacket noise data = [(data, p)] := by
  rw [openPacket, h]

theorem openPacket_of_error {noise noise' : NoiseSession snow} {data : Bytes} {e : CryptoError}
    (h : noise.readMessage data data.length = (noise', .error e)) :
    openPacket noise data = [] := by
  rw [openPacket, h]

/-- A side that stops after it has read a message. -/
theorem turn_stop (noise : NoiseSession snow) (u : List Message) (data : Bytes) :
    Turn (some noise) u { opened := openPacket noise data, read := some (.binary data) } none
      [] := by
  rcases hr : noise.readMessage data data.length with ⟨noise', e | p⟩
  · rw [openPacket_of_error hr]
    exact .refuses
  · rw [openPacket_of_ok hr]
    exact .departs hr

theorem turn_receive {noise noise' : NoiseSession snow} {acc acc' : FrameAccumulator}
    {data : Bytes} {maxBytes : ℕ} {f : Option Frame}
    (h : receive pc noise acc data maxBytes = .ok (noise', acc', f)) :
    Turn (some noise) [] { opened := openPacket noise data, read := some (.binary data) }
      (some noise') [] := by
  obtain ⟨p, hp, -⟩ := receive_ok h
  rw [openPacket_of_ok hp]
  exact .reads hp

namespace MsgLoop

variable {cfg : WsClientConfig} {now : ℕ} {m : MsgLoop snow} {i : Input}
  {r : Option (MsgLoop snow) × List Effect} {n : NoiseSession snow} {u : List Message}
  {sealed : List (Bytes × Bytes)}

/-- What the message loop has still to write. -/
def outgoing (m : MsgLoop snow) : List Message := m.unwritten.2.map .binary

/-- `r` comes of a turn that begins with the session `n` and the messages `u`. -/
def Takes (n : NoiseSession snow) (u : List Message) (sealed opened : List (Bytes × Bytes))
    (read : Option Message) (r : Option (MsgLoop snow) × List Effect) : Prop :=
  Turn (some n) u ⟨sealed, opened, r.2.filterMap Effect.wire?, read⟩ (r.1.map (·.noise))
    (r.1.elim [] outgoing)

theorem takes_nothing (hn : m.noise = n) (hu : m.outgoing = u) {o : List Effect}
    (ho : o.filterMap Effect.wire? = []) : Takes n u [] [] none (some m, o) := by
  rw [Takes, ho]
  dsimp only
  rw [Option.map_some, Option.elim_some, hn, hu]
  exact .writes rfl

theorem outgoing_of_phase (hp : m.phase = .select ∨ (∃ d, m.phase = .draining d) ∨
    m.phase = .drainClosing) : m.outgoing = [] := by
  rcases hp with hp | ⟨_, hp⟩ | hp <;> simp only [outgoing, unwritten, hp, List.map_nil]

theorem outgoing_writeChunks (m : MsgLoop snow) (f : Frame) (cs : List Bytes) :
    (m.writeChunks f cs).2.filterMap Effect.wire? ++ (m.writeChunks f cs).1.outgoing =
      cs.map .binary := by
  cases cs <;> rfl

theorem outgoing_pingChunks (cfg : WsClientConfig) (now : ℕ) (m : MsgLoop snow)
    (cs : List Bytes) : (m.pingChunks cfg now cs).2.filterMap Effect.wire? ++
      (m.pingChunks cfg now cs).1.outgoing = cs.map .binary := by
  cases cs <;> rfl

theorem takes_pump (m : MsgLoop snow) :
    Takes m.noise [] ((sealNext pc m.noise m.scheduler).flatMap Sealed.packets) [] none
      (m.pump pc) := by
  unfold pump
  split
  · next hpop =>
    rw [sealNext, hpop]
    exact .writes rfl
  · next f scheduler hpop =>
    rw [sealNext, hpop]
    dsimp only
    split
    · next he =>
      rw [sealFrame_of_encode _ _ he]
      exact .leaves
    · next encoded he =>
      split
      · next hs =>
        rw [sealFrame_of_encrypt _ he hs]
        exact .leaves
      · next noise chunks hs =>
        have hw := outgoing_writeChunks { m with scheduler, noise } f chunks
        cases chunks <;> exact turn_sealFrame _ he hs hw

theorem takes_onHeartbeat (m : MsgLoop snow) :
    Takes m.noise [] ((if m.waitingForPong then [] else
      sealFrame pc m.noise none pingFrame).flatMap Sealed.packets) [] none
      (m.onHeartbeat pc cfg now) := by
  unfold onHeartbeat
  split
  · exact .writes rfl
  · split
    · next he =>
      rw [sealFrame_of_encode _ _ he]
      exact .writes rfl
    · next encoded he =>
      split
      · next noise e hs =>
        rw [sealFrame_of_encrypt _ he hs]
        exact .spoils hs
      · next noise chunks hs =>
        have hw := outgoing_pingChunks cfg now { m with noise } chunks
        cases chunks <;> exact turn_sealFrame (f := pingFrame) _ he hs hw

theorem takes_onPacket (hp : m.phase = .select) (data : Bytes) :
    Takes m.noise [] [] (openPacket m.noise data) (some (.binary data))
      (m.onPacket pc cfg now data) := by
  unfold onPacket
  dsimp only
  split
  · exact turn_stop m.noise [] data
  · next noise acc f hr =>
    have hf : ((f.map Effect.dispatch).toList).filterMap Effect.wire? = [] := by cases f <;> rfl
    rw [Takes, hf, Option.elim_some, outgoing_of_phase]
    · exact turn_receive hr
    · exact Or.inl hp

/-- The message loop takes turns. -/
theorem step_takes (hi : i.works) (h : m.step pc cfg now i = some r) :
    Takes m.noise m.outgoing ((m.seals pc i).flatMap Sealed.packets) (m.opens i) i.reads? r := by
  cases hp : m.phase <;> simp only [step, hp] at h
  case select =>
    rw [outgoing_of_phase (Or.inl hp)]
    split at h <;> cases h <;> simp only [seals, opens, hp]
    · exact .leaves
    · exact takes_onPacket hp _
    · next item hitem =>
      rcases item with _ | _ | _ | data
      · exact .leaves
      · exact .leaves
      · exact .refuses
      · exact absurd rfl (hitem data)
    · next c =>
      cases c with
      | send f p => exact takes_pump { m with scheduler := m.scheduler.enqueue f p }
      | endpointChanged | reconnect => exact .writes rfl
      | wakeUp => exact takes_nothing rfl (outgoing_of_phase (Or.inl hp)) rfl
    · exact takes_onHeartbeat m
  case writing f rest =>
    have hu : m.outgoing = rest.map .binary := by simp only [outgoing, unwritten, hp]
    split at h <;> cases h <;> simp only [seals, opens, hp, hu]
    · have hw := outgoing_writeChunks m f rest
      cases rest <;> exact .writes hw
    · cases hi
  case draining disconnect =>
    rw [outgoing_of_phase (Or.inr (Or.inl ⟨disconnect, hp⟩))]
    split at h <;> cases h
    · next c => cases c <;> simp only [seals, opens, hp] <;> exact .writes rfl
    · cases disconnect <;> simp only [seals, opens, hp]
      · exact takes_pump m
      · exact .writes rfl
  case drainClosing =>
    rw [outgoing_of_phase (Or.inr (Or.inr hp))]
    split at h <;> cases h
    simp only [seals, opens, hp]
    exact .writes rfl
  case pinging rest =>
    have hu : m.outgoing = rest.map .binary := by simp only [outgoing, unwritten, hp]
    split at h <;> cases h <;> simp only [seals, opens, hp, hu]
    · have hw := outgoing_pingChunks cfg now m rest
      cases rest <;> exact .writes hw
    · cases hi
  case closing =>
    split at h <;> cases h
    simp only [seals, opens, hp]
    exact .leaves

end MsgLoop

namespace Loop

variable {cfg : WsClientConfig} {now : ℕ} {l : Loop snow} {i : Input} {r : Loop snow × List Effect}
  {noise : NoiseSession snow} {u : List Message} {sealed : List (Bytes × Bytes)}

/-- The session of the encrypted connection, while there is one. -/
def noise? (l : Loop snow) : Option (NoiseSession snow) :=
  match l.phase with
  | .authPayload _ noise | .authSend _ noise _ | .authAwait _ noise _ _
  | .authProcess _ noise => some noise
  | .online _ m => some m.noise
  | _ => none

/-- What the loop has still to write. -/
def outgoing (l : Loop snow) : List Message :=
  match l.phase with
  | .authSend _ _ rest => rest.map .binary
  | .online _ m => m.outgoing
  | _ => []

/-- `r` comes of a turn that begins with the session `noise` and the messages `u`. -/
def Takes (noise : NoiseSession snow) (u : List Message) (sealed opened : List (Bytes × Bytes))
    (read : Option Message) (r : Loop snow × List Effect) : Prop :=
  Turn (some noise) u ⟨sealed, opened, r.2.filterMap Effect.wire?, read⟩ r.1.noise? r.1.outgoing

theorem outgoing_authChunks (cfg : WsClientConfig) (now : ℕ) (l : Loop snow) (url : Text)
    (noise : NoiseSession snow) (cs : List Bytes) :
    (l.authChunks cfg now url noise cs).2.filterMap Effect.wire? ++
      (l.authChunks cfg now url noise cs).1.outgoing = cs.map .binary := by
  cases cs <;> rfl

theorem takes_onAuthPayload (l : Loop snow) (url : Text) (noise : NoiseSession snow)
    (authBytes : Bytes) :
    Takes noise [] ((sealFrame pc noise none ⟨1, .message, authBytes⟩).flatMap Sealed.packets) []
      none (l.onAuthPayload pc cfg now url noise (some authBytes)) := by
  simp only [onAuthPayload]
  split
  · next he =>
    rw [sealFrame_of_encode _ _ he]
    exact .leaves
  · next encoded he =>
    split
    · next hs =>
      rw [sealFrame_of_encrypt _ he hs]
      exact .leaves
    · next noise' chunks hs =>
      have hw := outgoing_authChunks cfg now l url noise' chunks
      cases chunks <;> exact turn_sealFrame _ he hs hw

theorem takes_onAuthItem (l : Loop snow) (url : Text) (noise : NoiseSession snow)
    (acc : FrameAccumulator) (deadline : ℕ) (data : Bytes) :
    Takes noise [] [] (openPacket noise data) (some (.binary data))
      (l.onAuthItem pc cfg url noise acc deadline (some (.ok (.binary data)))) := by
  simp only [onAuthItem]
  split
  · exact turn_stop noise [] data
  · next hr => exact turn_receive hr
  · next hr =>
    split
    · exact turn_receive hr
    · exact turn_stop noise [] data

/-- From the end of its handshake the client's loop takes turns. -/
theorem step_turn (hi : i.works) (h : l.step pc cfg now i = some r) (ha : l.accumulator?.isSome) :
    Turn l.noise? l.outgoing ⟨(l.seals pc i).flatMap Sealed.packets, l.opens i,
      r.2.filterMap Effect.wire?, i.reads?⟩ r.1.noise? r.1.outgoing := by
  cases hp : l.phase <;> simp only [accumulator?, hp, Option.isSome_none, Bool.false_eq_true] at ha
  all_goals
    simp only [step, hp] at h
    simp only [noise?, outgoing, hp]
  case authPayload url noise =>
    split at h <;> cases h
    next p =>
    cases p <;> simp only [seals, opens, hp]
    · exact .writes rfl
    · exact takes_onAuthPayload l url noise _
  case authSend url noise rest =>
    split at h <;> cases h <;> simp only [seals, opens, hp]
    · have hw := outgoing_authChunks cfg now l url noise rest
      cases rest <;> exact .writes hw
    · cases hi
  case authAwait url noise acc deadline =>
    split at h <;> cases h
    · next item =>
      rcases item with _ | _ | _ | data <;> simp only [seals, opens, hp]
      · exact .leaves
      · exact .leaves
      · exact .refuses
      · exact takes_onAuthItem l url noise acc deadline data
    · simp only [seals, opens, hp]
      exact .leaves
  case authProcess url noise =>
    split at h <;> cases h
    next outcome =>
    simp only [seals, opens, hp]
    cases outcome with
    | success => exact .writes rfl
    | unauthorized | failed | retryWithNewPayload => exact .leaves
  case online url m =>
    obtain ⟨⟨t, o⟩, hs, rfl⟩ := Option.map_eq_some_iff.mp h
    have hm := MsgLoop.step_takes hi hs
    simp only [seals, opens, hp]
    cases t <;> exact hm

/-- A loop that waits has its session, and nothing to write. -/
theorem outgoing_of_idle (h : l.idle) : l.noise?.isSome ∧ l.outgoing = [] := by
  obtain ⟨url, m, hp, hselect, -⟩ := idle_iff.mp h
  simp only [noise?, outgoing, hp]
  exact ⟨rfl, MsgLoop.outgoing_of_phase (Or.inl hselect)⟩

end Loop

namespace Session

variable {cfg : SessionConfig} {now : ℕ} {s : Session snow} {i : SessionInput}
  {u : List Message}

/-- The session of the encrypted connection, until the loop is left. -/
def noise? (s : Option (Session snow)) : Option (NoiseSession snow) :=
  s.bind fun s => if s.phase = .closing then none else some s.noise

/-- `r` comes of a turn that begins with the session `noise` and the messages `u`. -/
def Takes (noise : NoiseSession snow) (u : List Message) (sealed opened : List (Bytes × Bytes))
    (read : Option Message) (r : Session snow × List SessionEffect) : Prop :=
  Turn (some noise) u ⟨sealed, opened, r.2.filterMap SessionEffect.message?, read⟩
    (noise? (some r.1)) r.1.unsent

theorem noise?_of_phase (hp : s.phase ≠ .closing) : noise? (some s) = some s.noise := by
  rw [noise?, Option.bind_some, if_neg hp]

/-- The session goes on, and writes nothing. -/
theorem takes_quiet {noise : NoiseSession snow} {opened : List (Bytes × Bytes)}
    {read : Option Message} {s' : Session snow} {o : List SessionEffect}
    (ht : Turn (some noise) [] ⟨[], opened, [], read⟩ (some s'.noise) [])
    (ho : o.filterMap SessionEffect.message? = [])
    (hs : s'.phase = .select ∨ s'.phase = .inboxing) : Takes noise [] [] opened read (s', o) := by
  rcases hs with hs | hs
  · simpa only [Takes, ho, noise?_of_phase (s := s') (by simp [hs]), unsent, hs] using ht
  · simpa only [Takes, ho, noise?_of_phase (s := s') (by simp [hs]), unsent, hs] using ht

theorem unsent_writeChunks (s : Session snow) (f : Frame) (cs : List Bytes) :
    (s.writeChunks f cs).2.filterMap SessionEffect.message? ++ (s.writeChunks f cs).1.unsent =
      cs.map .binary := by
  cases cs <;> rfl

theorem unsent_pingChunks (cfg : SessionConfig) (now : ℕ) (s : Session snow)
    (cs : List Bytes) : (s.pingChunks cfg now cs).2.filterMap SessionEffect.message? ++
      (s.pingChunks cfg now cs).1.unsent = cs.map .binary := by
  cases cs <;> rfl

theorem takes_pump (s : Session snow) :
    Takes s.noise [] ((sealNext pc s.noise s.scheduler).flatMap Sealed.packets) [] none
      (s.pump pc) := by
  unfold pump
  split
  · next hpop =>
    rw [sealNext, hpop]
    exact .writes rfl
  · next f scheduler hpop =>
    rw [sealNext, hpop]
    dsimp only
    split
    · next he =>
      rw [sealFrame_of_encode _ _ he]
      exact .leaves
    · next encoded he =>
      split
      · next hs =>
        rw [sealFrame_of_encrypt _ he hs]
        exact .leaves
      · next noise chunks hs =>
        have hw := unsent_writeChunks { s with scheduler, noise } f chunks
        cases chunks <;> exact turn_sealFrame _ he hs hw

theorem takes_onHeartbeat (s : Session snow) :
    Takes s.noise [] ((if s.waitingForPong then [] else
      sealFrame pc s.noise none pingFrame).flatMap Sealed.packets) [] none
      (s.onHeartbeat pc cfg now) := by
  unfold onHeartbeat
  split
  · exact .leaves
  · split
    · next he =>
      rw [sealFrame_of_encode (f := pingFrame) _ _ he]
      exact .writes rfl
    · next encoded he =>
      split
      · next noise e hs =>
        rw [sealFrame_of_encrypt (f := pingFrame) _ he hs]
        exact .spoils hs
      · next noise chunks hs =>
        have hw := unsent_pingChunks cfg now { s with noise } chunks
        cases chunks <;> exact turn_sealFrame (f := pingFrame) _ he hs hw

theorem takes_onPacket (hp : s.phase = .select) (data : Bytes) :
    Takes s.noise [] [] (openPacket s.noise data) (some (.binary data))
      (s.onPacket pc cfg now data) := by
  unfold onPacket
  split
  · exact turn_stop s.noise [] data
  · next noise acc f hr =>
    have ht := turn_receive hr
    rcases f with _ | f
    · exact takes_quiet ht rfl (Or.inl hp)
    · unfold handle
      dsimp only
      split
      · exact takes_quiet ht rfl (Or.inl hp)
      · exact takes_quiet ht rfl (Or.inl hp)
      · exact takes_quiet ht rfl (Or.inr rfl)

/-- A session takes turns. -/
theorem step_turn {r : Option (Session snow) × List SessionEffect} (hi : i.works)
    (h : s.step pc cfg now i = some r) :
    Turn (noise? (some s)) s.unsent ⟨(s.seals pc i).flatMap Sealed.packets, s.opens i,
      r.2.filterMap SessionEffect.message?, i.reads?⟩ (noise? r.1) (r.1.elim [] unsent) := by
  by_cases hc : s.phase = .closing
  · obtain rfl := step_of_closing hc h
    cases i <;> simp [step, hc] at h
    simp only [noise?, unsent, seals, opens, hc]
    exact .leaves
  rw [noise?_of_phase hc]
  unfold step at h
  split at h <;> cases h
  · next data hp =>
    simp only [unsent, seals, opens, hp]
    exact takes_onPacket hp data
  · next item hitem hp =>
    rcases item with _ | _ | _ | data | _ | _ | _ <;> simp only [seals, opens, hp]
    case some.ok.binary => exact absurd rfl (hitem data)
    case none | some.error => exact .leaves
    all_goals exact .refuses
  · next c hp =>
    simp only [unsent, seals, opens, hp]
    cases c with
    | send f p => exact .writes rfl
    | close => exact .leaves
  · next hp =>
    simp only [unsent, seals, opens, hp]
    exact takes_onHeartbeat s
  · next hp =>
    simp only [unsent, seals, opens, hp]
    exact .writes rfl
  · next hp =>
    simp only [seals, opens, hp]
    exact .leaves
  · next hp =>
    simp only [unsent, seals, opens, hp]
    exact takes_pump s
  · next f rest hp =>
    have hw := unsent_writeChunks s f rest
    simp only [unsent, seals, opens, hp]
    cases rest <;> exact .writes hw
  · cases hi
  · next rest hp =>
    have hw := unsent_pingChunks cfg now s rest
    simp only [unsent, seals, opens, hp]
    cases rest <;> exact .writes hw
  · cases hi
  · next hp => exact absurd hp hc

/-- A session as a side of the connection. -/
def side (pc : Postcard) (cfg : SessionConfig) (snow : Snow) :
    Speaker snow (Option (Session snow)) (ℕ × SessionInput) SessionEffect (Sealed pc) where
  toEndpoint := conversation pc cfg snow
  packets := Sealed.packets
  writes := SessionEffect.message?
  reads i := i.2.reads?
  works i := i.2.works
  noise? := noise?
  unsent s := s.elim [] unsent
  turn := by
    intro t x t' o hi hs
    obtain ⟨s, r, rfl, hr, rfl, rfl⟩ := machine_step.mp hs
    exact step_turn hi hr

end Session

/-- The client with its callers as a side of the connection. -/
def WsClient.side (pc : Postcard) (cfg : WsClientConfig) (parses : Text → Bool) (snow : Snow) :
    Speaker snow (WsClient snow) Event Output (Sealed pc) where
  toEndpoint := conversation pc cfg parses snow
  packets := Sealed.packets
  writes o := o.loop?.bind Effect.wire?
  reads e := e.loop?.bind Input.reads?
  works e := e.loop?.all Input.works
  noise? w := w.loop.noise?
  unsent w := w.loop.outgoing
  turn := by
    intro w e w' o hi hs
    obtain ⟨ha, hst⟩ := conversation_step.mp hs
    rw [← List.filterMap_filterMap]
    rcases step_loop_cases hst with ⟨hl, ho, hne⟩ | ⟨i, r, rfl, -, hr, hl, ho⟩
    · have he : e.loop? = none := by
        cases e <;> first | rfl | exact absurd rfl (hne _)
      rw [hl, ho]
      simp only [conversation, he]
      exact .writes rfl
    · rw [hl, ho]
      exact Loop.step_turn hi hr (ha rfl)

theorem Served.unsent_of_idle {p : Served snow} (h : p.idle) :
    (Session.noise? p.session).isSome ∧ p.session.elim [] Session.unsent = [] := by
  obtain ⟨-, s, hs, hp⟩ := idle_iff.mp h
  rw [hs, Session.noise?_of_phase (by simp [hp])]
  exact ⟨rfl, by simp only [Option.elim_some, Session.unsent, hp]⟩

/-- A session with its handles as a side of the connection. -/
def Served.side (pc : Postcard) (cfg : WsServerConfig) (snow : Snow) :
    Speaker snow (Served snow) ServedInput ServedEffect (Sealed pc) where
  toEndpoint := conversation pc cfg snow
  packets := Sealed.packets
  writes o := o.session?.bind SessionEffect.message?
  reads i := i.loop?.bind (·.2.reads?)
  works i := i.loop?.all (·.2.works)
  noise? p := Session.noise? p.session
  unsent p := p.session.elim [] Session.unsent
  turn := by
    intro p i p' o hi hs
    rw [← List.filterMap_filterMap]
    rcases hj : i.loop? with _ | ⟨now, j⟩
    · obtain ⟨hsession, -, ho⟩ := step_accepts hs hj
      rw [hsession, ho]
      simp only [conversation, hj]
      exact .writes rfl
    · obtain rfl : i = .loop now j := by cases i <;> cases hj; rfl
      obtain ⟨queue, -, hst⟩ := Option.bind_eq_some_iff.mp hs
      obtain ⟨r, hr, hv⟩ := Option.map_eq_some_iff.mp hst
      obtain ⟨rfl, rfl⟩ := Prod.mk.inj hv
      have ho : (r.2.map ServedEffect.session).filterMap ServedEffect.session? = r.2 := by
        simp [ServedEffect.session?, List.filterMap_map, Function.comp_def]
      rw [ho]
      exact (Session.side pc cfg.session snow).turn _ _ _ _ hi hr

end NotifiTransport

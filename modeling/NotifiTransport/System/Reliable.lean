import NotifiTransport.System.Calls
import NotifiTransport.System.Sides

/-! # A client and a server on a reliable socket

The whole client and a session with its handles, from the end of their handshake, when the socket
between them keeps the order of the messages and no send fails. Nothing is assumed of what either
side opens: that it is what the other one has sealed follows from the turns they take.
-/

namespace NotifiTransport

/-- The client and the session on the two ends of a socket. -/
def callersOnSocket (pc : Postcard) (cfg : WsClientConfig) (parses : Text → Bool)
    (scfg : WsServerConfig) (snow : Snow) :
    Mealy (Recorded (Recorded (WsClient snow) (Sealed pc) (Bytes × Bytes)) Message Message ×
      Recorded (Recorded (Served snow) (Sealed pc) (Bytes × Bytes)) Message Message)
      (Event ⊕ ServedInput) (Output ⊕ ServedEffect) :=
  (WsClient.side pc cfg parses snow).together (Served.side pc scfg snow)

/-- The socket keeps the order of the messages, and no send fails. -/
def SocketWorks (pc : Postcard) (cfg : WsClientConfig) (parses : Text → Bool)
    (scfg : WsServerConfig) (snow : Snow) :
    Recorded (Recorded (WsClient snow) (Sealed pc) (Bytes × Bytes)) Message Message ×
      Recorded (Recorded (Served snow) (Sealed pc) (Bytes × Bytes)) Message Message →
    Event ⊕ ServedInput → Prop :=
  (WsClient.side pc cfg parses snow).Connected (Served.side pc scfg snow)

instance (pc : Postcard) (cfg : WsClientConfig) (parses : Text → Bool) (scfg : WsServerConfig)
    (snow : Snow)
    (s : Recorded (Recorded (WsClient snow) (Sealed pc) (Bytes × Bytes)) Message Message ×
      Recorded (Recorded (Served snow) (Sealed pc) (Bytes × Bytes)) Message Message)
    (e : Event ⊕ ServedInput) : Decidable (SocketWorks pc cfg parses scfg snow s e) :=
  inferInstanceAs (Decidable (Speaker.Connected _ _ s e))

variable {pc : Postcard} {cfg : WsClientConfig} {parses : Text → Bool} {scfg : WsServerConfig}
  {snow : Snow} {F : snow.Transport → List (Bytes × Bytes) → snow.Transport → Prop}
  {w₀ : WsClient snow} {url : Text} {a b : NoiseSession snow} {now : ℕ}
  {es : List (Event ⊕ ServedInput)} {tr : List (Output ⊕ ServedEffect)}
  {c : Recorded (Recorded (WsClient snow) (Sealed pc) (Bytes × Bytes)) Message Message}
  {s : Recorded (Recorded (Served snow) (Sealed pc) (Bytes × Bytes)) Message Message}

theorem flatMap_messages (ws : List (Sealed pc)) :
    ws.flatMap Sealed.messages = (ws.flatMap Sealed.packets).map (.binary ·.1) :=
  List.map_flatMap.symm

/-- The handshake has left both sides with nothing on its way. -/
theorem meeting_handshaken (hk : a.Keyed F b) (hl : w₀.loop.phase = .authPayload url a) :
    Speaker.Meeting F (WsClient.side pc cfg parses snow) (Served.side pc scfg snow) (.fresh w₀) []
      (.fresh (.start scfg now b)) [] := by
  have ha : (WsClient.side pc cfg parses snow).noise? w₀ = some a := by
    simp only [WsClient.side, Loop.noise?, hl]
  have hu : (WsClient.side pc cfg parses snow).unsent w₀ = [] := by
    simp only [WsClient.side, Loop.outgoing, hl]
  refine ⟨[], [], ?_, ?_, ?_⟩
  · rw [Recorded.fresh, ha]
    exact hk.joined
  · rw [Recorded.fresh, hu]
    exact .fresh
  · exact .fresh

theorem run_onSocket (hF : InOrder snow F) (hk : a.Keyed F b)
    (hl : w₀.loop.phase = .authPayload url a)
    (h : (callersOnSocket pc cfg parses scfg snow).run
      (.fresh (.fresh w₀), .fresh (.fresh (.start scfg now b))) es = some ((c, s), tr))
    (hG : (callersOnSocket pc cfg parses scfg snow).Along (SocketWorks pc cfg parses scfg snow)
      (.fresh (.fresh w₀), .fresh (.fresh (.start scfg now b))) es) :
    (∃ up down, InFlight (c, s) up down ∧ Speaker.Meeting F (WsClient.side pc cfg parses snow)
        (Served.side pc scfg snow) c.state up s.state down) ∧
      (callers pc cfg parses scfg snow).run (.fresh w₀, .fresh (.start scfg now b)) es =
        some ((c.state, s.state), tr) ∧
      (callers pc cfg parses scfg snow).Along (UnforgedCalls pc cfg parses scfg snow)
        (.fresh w₀, .fresh (.start scfg now b)) es :=
  Speaker.run_together hF (meeting_handshaken hk hl) h hG

/-- A run on such a socket is a run on a connection that nobody tampers with: both sides open only
what the other one has sealed, in its order. While both are there, nothing is lost on the way: what
either side has sealed has been opened, is on its way, or is still to be written. -/
theorem callers_onSocket (hF : InOrder snow F) (hk : a.Keyed F b)
    (hl : w₀.loop.phase = .authPayload url a)
    (h : (callersOnSocket pc cfg parses scfg snow).run
      (.fresh (.fresh w₀), .fresh (.fresh (.start scfg now b))) es = some ((c, s), tr))
    (hG : (callersOnSocket pc cfg parses scfg snow).Along (SocketWorks pc cfg parses scfg snow)
      (.fresh (.fresh w₀), .fresh (.fresh (.start scfg now b))) es) :
    (callers pc cfg parses scfg snow).run (.fresh w₀, .fresh (.start scfg now b)) es =
        some ((c.state, s.state), tr) ∧
      (callers pc cfg parses scfg snow).Along (UnforgedCalls pc cfg parses scfg snow)
        (.fresh w₀, .fresh (.start scfg now b)) es ∧
      ∃ up down, InFlight (c, s) up down ∧
        (c.state.state.loop.noise?.isSome → (Session.noise? s.state.state.session).isSome →
          c.state.sealed.flatMap Sealed.messages = s.state.opened.map (.binary ·.1) ++
              (up ++ c.state.state.loop.outgoing) ∧
            s.state.sealed.flatMap Sealed.messages = c.state.opened.map (.binary ·.1) ++
              (down ++ s.state.state.session.elim [] Session.unsent)) := by
  obtain ⟨⟨up, down, hf, hm⟩, hrun, hun⟩ := run_onSocket hF hk hl h hG
  refine ⟨hrun, hun, up, down, hf, fun hc hs => ?_⟩
  obtain ⟨q, hq, hw⟩ := hm.account hc hs
  obtain ⟨r, hr, hw'⟩ := hm.symm.account hs hc
  constructor
  · rw [flatMap_messages, show c.state.sealed.flatMap Sealed.packets = _ from hq, List.map_append]
    exact congrArg _ hw.symm
  · rw [flatMap_messages, show s.state.sealed.flatMap Sealed.packets = _ from hr, List.map_append]
    exact congrArg _ hw'.symm

/-- When both loops wait, nothing is in their channels and nothing is on its way, then everything
that the calls have put in the channels has been delivered. -/
theorem callers_delivered {es₀ : List Event} {tr₀ : List Output} {w : WsClient snow}
    {p : Served snow} {calls : List (Fin 4 × Frame)} {scalls : List SessionCmd} (hpc : pc.Lawful)
    (hF : InOrder snow F) (hk : a.Keyed F b)
    (h₀ : (WsClient.machine pc cfg parses snow).run .new es₀ = some (w₀, tr₀))
    (hl : w₀.loop.phase = .authPayload url a)
    (h : (callersOnSocket pc cfg parses scfg snow).run
      (.fresh (.fresh w₀), .fresh (.fresh (.start scfg now b))) es = some ((c, s), tr))
    (hG : (callersOnSocket pc cfg parses scfg snow).Along (SocketWorks pc cfg parses scfg snow)
      (.fresh (.fresh w₀), .fresh (.fresh (.start scfg now b))) es)
    (hwc : ((WsClient.machine pc cfg parses snow).watch (WsClient.accepts cfg)).run w₀ (lefts es) =
      some (w, calls))
    (hws : ((Served.machine pc scfg snow).watch (Served.accepts scfg)).run (.start scfg now b)
      (rights es) = some (p, scalls))
    (hc : PayloadsBelow pc (2 ^ 32) (c.state.sealed.map (·.frame)))
    (hs : PayloadsBelow pc (2 ^ 32) (s.state.sealed.map (·.frame)))
    (hcidle : w.loop.idle) (hcq : dataSends w.queue = []) (hsidle : p.idle)
    (hco : c.opened = s.sealed) (hso : s.opened = c.sealed) :
    gotByClient tr = Served.callFrames scalls ∧
      ∃ (auth : Option Bytes) (rest : List Frame),
        gotByServer tr = (auth.map (⟨1, .message, ·⟩)).toList ++ rest ∧
        MergesAll (fun k => substream k (dataSends w₀.queue ++ calls)) rest := by
  obtain ⟨⟨up, down, hf, hm⟩, hrun, -⟩ := run_onSocket hF hk hl h hG
  obtain ⟨hleft, hright⟩ := duplex_run hrun
  obtain rfl : w = c.state.state :=
    Mealy.run_watch_state (Mealy.run_restrict.mp (Endpoint.recorded_run hleft)).1 hwc
  obtain rfl : p = s.state.state := Mealy.run_watch_state (Endpoint.recorded_run hright) hws
  obtain rfl : up = [] := by simpa [hso] using hf.up
  obtain rfl : down = [] := by simpa [hco] using hf.down
  obtain ⟨hcn, hcu⟩ := Loop.outgoing_of_idle hcidle
  obtain ⟨hsn, hsu⟩ := Served.unsent_of_idle hsidle
  constructor
  · exact client_at_rest hpc hl hrun hws hs hcidle hsidle (hm.symm.arrived hsn hcn hsu)
  · exact server_at_rest hpc h₀ hl hrun hwc hc hcidle hcq hsidle (hm.arrived hcn hsn hcu)

theorem Session.handle_goes_on {z : Session snow} (hp : z.phase = .select) (f : Frame) :
    (z.handle f).1.phase ≠ .closing ∧ (z.handle f).1.waitingForPong = z.waitingForPong := by
  cases hk : f.kind <;> simp [handle, hk, hp]

/-- No packet ends the connection. A message loop in whose session no call has failed goes on after
each packet that it reads, and so does a session, if the payloads are within the limits of their
reader. -/
theorem callers_go_on (hpc : pc.Lawful) (hF : InOrder snow F) (hk : a.Keyed F b)
    (hl : w₀.loop.phase = .authPayload url a)
    (h : (callersOnSocket pc cfg parses scfg snow).run
      (.fresh (.fresh w₀), .fresh (.fresh (.start scfg now b))) es = some ((c, s), tr))
    (hG : (callersOnSocket pc cfg parses scfg snow).Along (SocketWorks pc cfg parses scfg snow)
      (.fresh (.fresh w₀), .fresh (.fresh (.start scfg now b))) es)
    (hc : PayloadsBelow pc (2 ^ 32) (c.state.sealed.map (·.frame)))
    (hs : PayloadsBelow pc (2 ^ 32) (s.state.sealed.map (·.frame))) :
    (∀ url' m data, c.state.state.loop.phase = .online url' m → m.phase = .select →
      m.noise ≠ ⟨none⟩ →
      PayloadsBelow pc (cfg.maxPayloadBytes + 1) (s.state.sealed.map (·.frame)) →
      SocketWorks pc cfg parses scfg snow (c, s)
        (.inl (.loop (.next (some (.ok (.binary data)))))) →
      ∀ t, ∃ m' o, m.step pc cfg t (.next (some (.ok (.binary data)))) = some (some m', o) ∧
        m'.phase = .select ∧ m'.waitingForPong = false) ∧
    (∀ z data, s.state.state.session = some z → z.phase = .select → z.noise ≠ ⟨none⟩ →
      PayloadsBelow pc (scfg.session.maxBytes + 1) (c.state.sealed.map (·.frame)) →
      ∀ t, SocketWorks pc cfg parses scfg snow (c, s)
        (.inr (.loop t (.next (some (.ok (.binary data)))))) →
      ∃ z' o, z.step pc scfg.session t (.next (some (.ok (.binary data)))) = some (some z', o) ∧
        z'.phase ≠ .closing ∧ z'.waitingForPong = false) := by
  obtain ⟨⟨up, down, hf, hm⟩, hrun, -⟩ := run_onSocket hF hk hl h hG
  obtain ⟨hleft, hright⟩ := duplex_run hrun
  constructor
  · rintro url' m data hp hselect hn hmax ⟨-, hnext⟩ t
    obtain ⟨is, -, hr⟩ := WsClient.conversation_simulates hleft
    have hheard := Loop.conversation_heard hl hr
    rw [Loop.accumulator?, hp] at hheard
    obtain ⟨down, rfl⟩ : [Message.binary data] <+: down := hf.reads_left.mp hnext
    have hnoise : (WsClient.side pc cfg parses snow).noise? c.state.state = some m.noise := by
      simp only [WsClient.side, Loop.noise?, hp]
    obtain ⟨n', p, hread, hle⟩ := hm.decrypts hF hnoise hn
    obtain ⟨acc', g, habs⟩ := hheard.next hpc hs hmax hle
    simp only [MsgLoop.step, hselect, MsgLoop.onPacket, receive_of_read hread habs]
    exact ⟨_, _, rfl, rfl, rfl⟩
  · rintro z data hz hselect hn hmax t ⟨-, hnext⟩
    have hheard := Session.conversation_heard (Served.conversation_simulates hright)
    have hacc : Session.accumulator? s.state.state.session = some z.accumulator := by
      simp [Session.accumulator?, hz, hselect]
    rw [hacc] at hheard
    obtain ⟨up, rfl⟩ : [Message.binary data] <+: up := hf.reads_right.mp hnext
    have hnoise : (Served.side pc scfg snow).noise? s.state.state = some z.noise := by
      simp only [Served.side, hz]
      exact Session.noise?_of_phase (by simp [hselect])
    obtain ⟨n', p, hread, hle⟩ := hm.symm.decrypts hF hnoise hn
    obtain ⟨acc', g, habs⟩ := hheard.next hpc hc hmax hle
    simp only [Session.step, hselect, Session.onPacket, receive_of_read hread habs]
    rcases g with _ | f
    · exact ⟨_, _, rfl, by simp, rfl⟩
    · exact ⟨_, _, rfl, Session.handle_goes_on rfl f⟩

section Sample

theorem keyed_sample : NoiseSession.Keyed Ideal.flight (Ideal.session Ideal.genuine)
    (Ideal.session Ideal.genuine) :=
  ⟨_, _, rfl, rfl, rfl, rfl⟩

theorem run_onSocket_callsMade : ∃ c s tr,
    (callersOnSocket .wire .sample (fun _ => true) .sample (Snow.ideal Ideal.genuine)).run
        (.fresh (.fresh handshakenClient), .fresh (.fresh (.start .sample 0 (Ideal.session _))))
        callsMade = some ((c, s), tr) ∧
    (callersOnSocket .wire .sample (fun _ => true) .sample (Snow.ideal Ideal.genuine)).Along
      (SocketWorks .wire .sample (fun _ => true) .sample _)
      (.fresh (.fresh handshakenClient), .fresh (.fresh (.start .sample 0 (Ideal.session _))))
      callsMade ∧
    PayloadsBelow .wire (2 ^ 32) (c.state.sealed.map (·.frame)) ∧
    PayloadsBelow .wire (2 ^ 32) (s.state.sealed.map (·.frame)) ∧
    c.state.state.loop.idle ∧ dataSends c.state.state.queue = [] ∧ s.state.state.idle ∧
    c.opened = s.sealed ∧ s.opened = c.sealed := by
  have hrun : (((callersOnSocket .wire .sample (fun _ => true) .sample
      (Snow.ideal Ideal.genuine)).restrict
      (SocketWorks .wire .sample (fun _ => true) .sample _)).run
        (.fresh (.fresh handshakenClient), .fresh (.fresh (.start .sample 0 (Ideal.session _))))
        callsMade).any
        (fun x => PayloadsBelow .wire (2 ^ 32) (x.1.1.state.sealed.map (·.frame)) ∧
          PayloadsBelow .wire (2 ^ 32) (x.1.2.state.sealed.map (·.frame)) ∧
          x.1.1.state.state.loop.idle ∧ dataSends x.1.1.state.state.queue = [] ∧
          x.1.2.state.state.idle ∧ x.1.1.opened = x.1.2.sealed ∧
          x.1.2.opened = x.1.1.sealed) = true := by
    decide +kernel
  obtain ⟨⟨⟨c, s⟩, tr⟩, hr, hx⟩ := (Option.any_eq_true _ _).mp hrun
  obtain ⟨h, hG⟩ := Mealy.run_restrict.mp hr
  exact ⟨c, s, tr, h, hG, of_decide_eq_true hx⟩

theorem callers_onSocket_callsMade : ∃ c s tr,
    (callersOnSocket .wire .sample (fun _ => true) .sample (Snow.ideal Ideal.genuine)).run
        (.fresh (.fresh handshakenClient), .fresh (.fresh (.start .sample 0 (Ideal.session _))))
        callsMade = some ((c, s), tr) ∧
    ∃ up down, InFlight (c, s) up down ∧
      c.state.sealed.flatMap Sealed.messages = s.state.opened.map (.binary ·.1) ++
        (up ++ c.state.state.loop.outgoing) ∧
      s.state.sealed.flatMap Sealed.messages = c.state.opened.map (.binary ·.1) ++
        (down ++ s.state.state.session.elim [] Session.unsent) := by
  obtain ⟨c, s, tr, h, hG, -, -, hcidle, -, hsidle, -⟩ := run_onSocket_callsMade
  obtain ⟨-, -, up, down, hf, hall⟩ := callers_onSocket Ideal.inOrder keyed_sample rfl h hG
  exact ⟨c, s, tr, h, up, down, hf, hall (Loop.outgoing_of_idle hcidle).1
    (Served.unsent_of_idle hsidle).1⟩

theorem callers_delivered_callsMade : ∃ c s tr w calls p scalls,
    (callersOnSocket .wire .sample (fun _ => true) .sample (Snow.ideal Ideal.genuine)).run
        (.fresh (.fresh handshakenClient), .fresh (.fresh (.start .sample 0 (Ideal.session _))))
        callsMade = some ((c, s), tr) ∧
    ((WsClient.machine .wire .sample (fun _ => true) (Snow.ideal Ideal.genuine)).watch
      (WsClient.accepts .sample)).run handshakenClient (lefts callsMade) = some (w, calls) ∧
    ((Served.machine .wire .sample (Snow.ideal Ideal.genuine)).watch (Served.accepts .sample)).run
      (.start .sample 0 (Ideal.session _)) (rights callsMade) = some (p, scalls) ∧
    gotByClient tr = Served.callFrames scalls ∧
    ∃ (auth : Option Bytes) (rest : List Frame),
      gotByServer tr = (auth.map (⟨1, .message, ·⟩)).toList ++ rest ∧
      MergesAll (fun k => substream k (dataSends handshakenClient.queue ++ calls)) rest := by
  obtain ⟨c, s, tr, h, hG, hc, hs, hcidle, hcq, hsidle, hco, hso⟩ := run_onSocket_callsMade
  obtain ⟨tr₀, h₀⟩ := run_handshaking
  obtain ⟨-, hcallers, -⟩ := run_onSocket Ideal.inOrder keyed_sample rfl h hG
  obtain ⟨hrun, -⟩ := Mealy.run_restrict.mp (Endpoint.recorded_run (duplex_run hcallers).1)
  obtain ⟨calls, hwc⟩ := Mealy.run_watch (WsClient.accepts .sample) hrun
  obtain ⟨scalls, hws⟩ := Mealy.run_watch (Served.accepts .sample)
    (Endpoint.recorded_run (duplex_run hcallers).2)
  exact ⟨c, s, tr, _, calls, _, scalls, h, hwc, hws, callers_delivered Postcard.wire_lawful
    Ideal.inOrder keyed_sample h₀ rfl h hG hwc hws hc hs hcidle hcq hsidle hco hso⟩

/-- The session has answered, and the event of the client is on its way. -/
def answered : List (Event ⊕ ServedInput) := callsMade.take 29

theorem ne_none_of_isFinished {noise : NoiseSession snow} (h : noise.isFinished = true) :
    noise ≠ ⟨none⟩ := by
  rintro rfl
  cases h

theorem run_onSocket_answered : ∃ c s tr url m z,
    (callersOnSocket .wire .sample (fun _ => true) .sample (Snow.ideal Ideal.genuine)).run
        (.fresh (.fresh handshakenClient), .fresh (.fresh (.start .sample 0 (Ideal.session _))))
        answered = some ((c, s), tr) ∧
    (callersOnSocket .wire .sample (fun _ => true) .sample (Snow.ideal Ideal.genuine)).Along
      (SocketWorks .wire .sample (fun _ => true) .sample _)
      (.fresh (.fresh handshakenClient), .fresh (.fresh (.start .sample 0 (Ideal.session _))))
      answered ∧
    (c.state.state.loop.phase = .online url m ∧ m.phase = .select ∧ m.noise ≠ ⟨none⟩) ∧
    (s.state.state.session = some z ∧ z.phase = .select ∧ z.noise ≠ ⟨none⟩) ∧
    PayloadsBelow .wire 17 (c.state.sealed.map (·.frame)) ∧
    PayloadsBelow .wire 17 (s.state.sealed.map (·.frame)) ∧
    SocketWorks .wire .sample (fun _ => true) .sample _ (c, s)
      (.inl (.loop (.next (some (.ok (.binary (smallPacket 2 0 7 1))))))) ∧
    SocketWorks .wire .sample (fun _ => true) .sample _ (c, s)
      (.inr (.loop 0 (.next (some (.ok (.binary (smallPacket 0 1 9 2))))))) := by
  have hrun : (((callersOnSocket .wire .sample (fun _ => true) .sample
      (Snow.ideal Ideal.genuine)).restrict
      (SocketWorks .wire .sample (fun _ => true) .sample _)).run
        (.fresh (.fresh handshakenClient), .fresh (.fresh (.start .sample 0 (Ideal.session _))))
        answered).any
        (fun x => x.1.1.state.state.loop.idle ∧
          x.1.1.state.state.loop.noise?.any (·.isFinished) ∧ x.1.2.state.state.idle ∧
          (Session.noise? x.1.2.state.state.session).any (·.isFinished) ∧
          PayloadsBelow .wire 17 (x.1.1.state.sealed.map (·.frame)) ∧
          PayloadsBelow .wire 17 (x.1.2.state.sealed.map (·.frame)) ∧
          SocketWorks .wire .sample (fun _ => true) .sample _ x.1
            (.inl (.loop (.next (some (.ok (.binary (smallPacket 2 0 7 1))))))) ∧
          SocketWorks .wire .sample (fun _ => true) .sample _ x.1
            (.inr (.loop 0 (.next (some (.ok (.binary (smallPacket 0 1 9 2)))))))) = true := by
    decide +kernel
  obtain ⟨⟨⟨c, s⟩, tr⟩, hr, hx⟩ := (Option.any_eq_true _ _).mp hrun
  obtain ⟨h, hG⟩ := Mealy.run_restrict.mp hr
  obtain ⟨hcidle, hcn, hsidle, hsn, hrest⟩ := of_decide_eq_true hx
  obtain ⟨url, m, hp, hselect, -⟩ := Loop.idle_iff.mp hcidle
  obtain ⟨-, z, hz, hzselect⟩ := Served.idle_iff.mp hsidle
  rw [Loop.noise?, hp] at hcn
  rw [hz, Session.noise?_of_phase (by simp [hzselect])] at hsn
  exact ⟨c, s, tr, url, m, z, h, hG, ⟨hp, hselect, ne_none_of_isFinished hcn⟩,
    ⟨hz, hzselect, ne_none_of_isFinished hsn⟩, hrest⟩

theorem callers_go_on_answered : ∃ c s tr url m z,
    (callersOnSocket .wire .sample (fun _ => true) .sample (Snow.ideal Ideal.genuine)).run
        (.fresh (.fresh handshakenClient), .fresh (.fresh (.start .sample 0 (Ideal.session _))))
        answered = some ((c, s), tr) ∧
    c.state.state.loop.phase = .online url m ∧ s.state.state.session = some z ∧
    (∃ m' o, m.step .wire .sample 0 (.next (some (.ok (.binary (smallPacket 2 0 7 1))))) =
      some (some m', o) ∧ m'.phase = .select ∧ m'.waitingForPong = false) ∧
    ∃ z' o, z.step .wire WsServerConfig.sample.session 0
        (.next (some (.ok (.binary (smallPacket 0 1 9 2))))) = some (some z', o) ∧
      z'.phase ≠ .closing ∧ z'.waitingForPong = false := by
  obtain ⟨c, s, tr, url, m, z, h, hG, ⟨hp, hselect, hn⟩, ⟨hz, hzselect, hzn⟩, hc, hs, hreads,
    hreads'⟩ := run_onSocket_answered
  obtain ⟨hclient, hserver⟩ := callers_go_on Postcard.wire_lawful Ideal.inOrder keyed_sample rfl h
    hG (hc.mono (by decide)) (hs.mono (by decide))
  exact ⟨c, s, tr, url, m, z, h, hp, hz,
    hclient url m _ hp hselect hn (hs.mono (by decide)) hreads 0,
    hserver z _ hz hzselect hzn (hc.mono (by decide)) 0 hreads'⟩

end Sample

end NotifiTransport

import NotifiTransport.Client.Calls
import NotifiTransport.Server.Calls
import NotifiTransport.System.Link

/-! # A client and a server with their callers

The whole client and a session of the server with its handles on one connection, which an attacker
controls. Every caller's frame is delivered at most once, unchanged, and in the order of the calls:
to the client in one stream, to the server in one stream for each priority.
-/

namespace NotifiTransport

/-- The client from the end of its handshake, and the session with its handles. -/
def callers (pc : Postcard) (cfg : WsClientConfig) (parses : Text → Bool) (scfg : WsServerConfig)
    (snow : Snow) :
    Mealy (Recorded (WsClient snow) (Sealed pc) (Bytes × Bytes) ×
      Recorded (Served snow) (Sealed pc) (Bytes × Bytes))
      (Event ⊕ ServedInput) (Output ⊕ ServedEffect) :=
  duplex (WsClient.conversation pc cfg parses snow) (Served.conversation pc scfg snow)

/-- Both ends open only what the other end has sealed, in its order. -/
def UnforgedCalls (pc : Postcard) (cfg : WsClientConfig) (parses : Text → Bool)
    (scfg : WsServerConfig) (snow : Snow) :
    Recorded (WsClient snow) (Sealed pc) (Bytes × Bytes) ×
      Recorded (Served snow) (Sealed pc) (Bytes × Bytes) → Event ⊕ ServedInput → Prop :=
  Genuine (WsClient.conversation pc cfg parses snow) (Served.conversation pc scfg snow)
    Sealed.packets Sealed.packets

instance (pc : Postcard) (cfg : WsClientConfig) (parses : Text → Bool) (scfg : WsServerConfig)
    (snow : Snow) (s : Recorded (WsClient snow) (Sealed pc) (Bytes × Bytes) ×
      Recorded (Served snow) (Sealed pc) (Bytes × Bytes)) (e : Event ⊕ ServedInput) :
    Decidable (UnforgedCalls pc cfg parses scfg snow s e) :=
  inferInstanceAs (Decidable (Genuine _ _ _ _ s e))

/-- The messages and events that the client has got, the auth response among them. -/
def gotByClient (tr : List (Output ⊕ ServedEffect)) : List Frame :=
  dataFrames (received ((lefts tr).filterMap Output.loop?))

/-- What the session has put in its inbox. -/
def gotByServer (tr : List (Output ⊕ ServedEffect)) : List Frame :=
  delivered ((rights tr).filterMap ServedEffect.session?)

variable {pc : Postcard} {cfg : WsClientConfig} {parses : Text → Bool} {scfg : WsServerConfig}
  {snow : Snow} {w₀ w : WsClient snow} {url : Text} {a b : NoiseSession snow} {now : ℕ}
  {es : List (Event ⊕ ServedInput)} {tr : List (Output ⊕ ServedEffect)}
  {c : Recorded (WsClient snow) (Sealed pc) (Bytes × Bytes)}
  {s : Recorded (Served snow) (Sealed pc) (Bytes × Bytes)} {p : Served snow}
  {calls : List (Fin 4 × Frame)} {scalls : List SessionCmd}

/-- A part of an inbox has the auth frame first as well, or nothing. -/
theorem inbox_cases {auth : Option Bytes} {got fs : List Frame}
    (h : got <+: (auth.map (⟨1, .message, ·⟩)).toList ++ fs) :
    ∃ (auth' : Option Bytes) (rest : List Frame), (∀ b, auth' = some b → auth = some b) ∧
      got = (auth'.map (⟨1, .message, ·⟩)).toList ++ rest ∧ rest <+: fs := by
  rcases auth with _ | authBytes
  · exact ⟨none, got, by simp, rfl, h⟩
  · rcases got with _ | ⟨f, rest⟩
    · exact ⟨none, [], by simp, rfl, List.nil_prefix⟩
    · obtain ⟨rfl, hrest⟩ := List.cons_prefix_cons.mp h
      exact ⟨some authBytes, rest, by simp, rfl, hrest⟩

/-- The client gets the first of the frames that `respond` and `push_event` have accepted, each of
them once and in the order of the calls. -/
theorem callers_to_client (hpc : pc.Lawful) (hl : w₀.loop.phase = .authPayload url a)
    (h : (callers pc cfg parses scfg snow).run (.fresh w₀, .fresh (.start scfg now b)) es =
      some ((c, s), tr))
    (hG : (callers pc cfg parses scfg snow).Along (UnforgedCalls pc cfg parses scfg snow)
      (.fresh w₀, .fresh (.start scfg now b)) es)
    (hw : ((Served.machine pc scfg snow).watch (Served.accepts scfg)).run (.start scfg now b)
      (rights es) = some (p, scalls))
    (hs : PayloadsBelow pc (2 ^ 32) (s.sealed.map (·.frame))) :
    gotByClient tr <+: Served.callFrames scalls := by
  obtain ⟨hleft, hright⟩ := duplex_run h
  obtain ⟨ho, -⟩ := duplex_opened h hG List.nil_prefix List.nil_prefix
  exact (WsClient.conversation_received hpc hl hleft hs ho).trans
    (Served.conversation_frames hright hw)

/-- The session puts in its inbox the auth frame of the client, if there is one, and then, for each
priority, the first of the frames that were in the client's channel or that `request` and
`send_event` have put there, each of them once and in the order of the calls. -/
theorem callers_to_server {es₀ : List Event} {tr₀ : List Output} (hpc : pc.Lawful)
    (h₀ : (WsClient.machine pc cfg parses snow).run .new es₀ = some (w₀, tr₀))
    (hl : w₀.loop.phase = .authPayload url a)
    (h : (callers pc cfg parses scfg snow).run (.fresh w₀, .fresh (.start scfg now b)) es =
      some ((c, s), tr))
    (hG : (callers pc cfg parses scfg snow).Along (UnforgedCalls pc cfg parses scfg snow)
      (.fresh w₀, .fresh (.start scfg now b)) es)
    (hw : ((WsClient.machine pc cfg parses snow).watch (WsClient.accepts cfg)).run w₀ (lefts es) =
      some (w, calls))
    (hc : PayloadsBelow pc (2 ^ 32) (c.sealed.map (·.frame))) :
    ∃ (auth : Option Bytes) (rest : List Frame),
      gotByServer tr = (auth.map (⟨1, .message, ·⟩)).toList ++ rest ∧
      (∀ authBytes, auth = some authBytes → .inl (.loop (.authPayload (some authBytes))) ∈ es) ∧
      Merges (fun k => substream k (dataSends w₀.queue ++ calls)) rest := by
  obtain ⟨hleft, hright⟩ := duplex_run h
  obtain ⟨-, ho⟩ := duplex_opened h hG List.nil_prefix List.nil_prefix
  obtain ⟨auth, ha, hframes⟩ := WsClient.conversation_frames hleft
  have hgot := Served.conversation_delivered hpc hright hc ho
  rw [hframes] at hgot
  obtain ⟨auth', rest, hauth, hinbox, hrest⟩ := inbox_cases hgot
  have hmerge := WsClient.conversation_merges h₀ hl hleft hw
  exact ⟨auth', rest, hinbox, fun b hb => mem_lefts.mp (ha b (hauth b hb)), hmerge.of_prefix hrest⟩

/-- A request that has no answer at the end of the handshake returns `Ok` only with the data of a
`respond` to its id which this session has accepted. -/
theorem callers_answered {es₀ : List Event} {tr₀ : List Output} {i : ℕ} {data : Bytes}
    (hpc : pc.Lawful)
    (h₀ : (WsClient.machine pc cfg parses snow).run .new es₀ = some (w₀, tr₀))
    (hl : w₀.loop.phase = .authPayload url a)
    (h : (callers pc cfg parses scfg snow).run (.fresh w₀, .fresh (.start scfg now b)) es =
      some ((c, s), tr))
    (hG : (callers pc cfg parses scfg snow).Along (UnforgedCalls pc cfg parses scfg snow)
      (.fresh w₀, .fresh (.start scfg now b)) es)
    (hw : ((Served.machine pc scfg snow).watch (Served.accepts scfg)).run (.start scfg now b)
      (rights es) = some (p, scalls))
    (hs : PayloadsBelow pc (2 ^ 32) (s.sealed.map (·.frame)))
    (hn : ∀ r, w₀.requests[i]? = some r → ∀ x, r.rx ≠ .value x)
    (hd : .inl (.completed i (.ok data)) ∈ tr) :
    ∃ r, c.state.requests[i]? = some r ∧ .inr (.respond r.id data) ∈ es ∧
      .send ⟨r.id, .message, data⟩ .normal ∈ scalls := by
  obtain ⟨hleft, -⟩ := duplex_run h
  obtain ⟨hrun, -⟩ := Mealy.run_restrict.mp (Endpoint.recorded_run hleft)
  rcases WsClient.run_sourced (WsClient.run_routed h₀) hrun i data (mem_lefts.mpr hd) with
    ⟨r, hr, hx⟩ | ⟨r, hr, hf⟩
  · exact absurd hx (hn r hr data)
  · have hgot : (⟨r.id, .message, data⟩ : Frame) ∈ gotByClient tr :=
      List.mem_filter.mpr ⟨hf, rfl⟩
    have hcall := (callers_to_client hpc hl h hG hw hs).subset hgot
    obtain ⟨hcalls, hes⟩ := Served.run_accepts_respond hw hcall
    exact ⟨r, hr, mem_rights.mp hes, hcalls⟩

/-- A client whose loop waits and which has opened everything has got all that the calls of an idle
session have put in its channel. -/
theorem client_at_rest (hpc : pc.Lawful) (hl : w₀.loop.phase = .authPayload url a)
    (h : (callers pc cfg parses scfg snow).run (.fresh w₀, .fresh (.start scfg now b)) es =
      some ((c, s), tr))
    (hws : ((Served.machine pc scfg snow).watch (Served.accepts scfg)).run (.start scfg now b)
      (rights es) = some (p, scalls))
    (hs : PayloadsBelow pc (2 ^ 32) (s.sealed.map (·.frame)))
    (hcidle : c.state.loop.idle) (hsidle : p.idle)
    (hco : c.opened = s.sealed.flatMap Sealed.packets) :
    gotByClient tr = Served.callFrames scalls := by
  obtain ⟨hleft, hright⟩ := duplex_run h
  obtain ⟨is, -, hr⟩ := WsClient.conversation_simulates hleft
  have hheard := Loop.conversation_heard hl hr
  obtain ⟨url', m, hp, -⟩ := Loop.idle_iff.mp hcidle
  rw [Loop.accumulator?, hp] at hheard
  rw [gotByClient, hheard.all hpc hs hco]
  exact Served.conversation_frames_all hright hws hsidle

/-- A session that waits and has opened everything has got all that the calls of an idle client have
put in its channel. -/
theorem server_at_rest {es₀ : List Event} {tr₀ : List Output} (hpc : pc.Lawful)
    (h₀ : (WsClient.machine pc cfg parses snow).run .new es₀ = some (w₀, tr₀))
    (hl : w₀.loop.phase = .authPayload url a)
    (h : (callers pc cfg parses scfg snow).run (.fresh w₀, .fresh (.start scfg now b)) es =
      some ((c, s), tr))
    (hwc : ((WsClient.machine pc cfg parses snow).watch (WsClient.accepts cfg)).run w₀ (lefts es) =
      some (c.state, calls))
    (hc : PayloadsBelow pc (2 ^ 32) (c.sealed.map (·.frame)))
    (hcidle : c.state.loop.idle) (hcq : dataSends c.state.queue = []) (hsidle : s.state.idle)
    (hso : s.opened = c.sealed.flatMap Sealed.packets) :
    ∃ (auth : Option Bytes) (rest : List Frame),
      gotByServer tr = (auth.map (⟨1, .message, ·⟩)).toList ++ rest ∧
      MergesAll (fun k => substream k (dataSends w₀.queue ++ calls)) rest := by
  obtain ⟨hleft, hright⟩ := duplex_run h
  have hsim := Served.conversation_simulates hright
  obtain ⟨-, s', hs', hp⟩ := Served.idle_iff.mp hsidle
  have hheard := Session.conversation_heard hsim
  have hacc : Session.accumulator? s.state.session = some s'.accumulator := by
    simp [Session.accumulator?, hs', hp]
  rw [hacc] at hheard
  have hgot : gotByServer tr = dataFrames (c.sealed.map (·.frame)) := by
    rw [← hheard.all hpc hc hso]
    exact Session.run_delivered (Endpoint.recorded_run hsim)
  obtain ⟨auth, -, hframes⟩ := WsClient.conversation_frames hleft
  exact ⟨auth, _, hgot.trans hframes, WsClient.conversation_merges_all h₀ hl hleft hwc hcidle hcq⟩

/-- When both loops wait, nothing is in their channels and nothing is on its way, then everything
that the calls have put in the channels has been delivered. -/
theorem callers_at_rest {es₀ : List Event} {tr₀ : List Output} (hpc : pc.Lawful)
    (h₀ : (WsClient.machine pc cfg parses snow).run .new es₀ = some (w₀, tr₀))
    (hl : w₀.loop.phase = .authPayload url a)
    (h : (callers pc cfg parses scfg snow).run (.fresh w₀, .fresh (.start scfg now b)) es =
      some ((c, s), tr))
    (hwc : ((WsClient.machine pc cfg parses snow).watch (WsClient.accepts cfg)).run w₀ (lefts es) =
      some (w, calls))
    (hws : ((Served.machine pc scfg snow).watch (Served.accepts scfg)).run (.start scfg now b)
      (rights es) = some (p, scalls))
    (hc : PayloadsBelow pc (2 ^ 32) (c.sealed.map (·.frame)))
    (hs : PayloadsBelow pc (2 ^ 32) (s.sealed.map (·.frame)))
    (hcidle : w.loop.idle) (hcq : dataSends w.queue = []) (hsidle : p.idle)
    (hco : c.opened = s.sealed.flatMap Sealed.packets)
    (hso : s.opened = c.sealed.flatMap Sealed.packets) :
    gotByClient tr = Served.callFrames scalls ∧
      ∃ (auth : Option Bytes) (rest : List Frame),
        gotByServer tr = (auth.map (⟨1, .message, ·⟩)).toList ++ rest ∧
        MergesAll (fun k => substream k (dataSends w₀.queue ++ calls)) rest := by
  obtain ⟨hleft, hright⟩ := duplex_run h
  obtain rfl : w = c.state :=
    Mealy.run_watch_state (Mealy.run_restrict.mp (Endpoint.recorded_run hleft)).1 hwc
  obtain rfl : p = s.state := Mealy.run_watch_state (Endpoint.recorded_run hright) hws
  constructor
  · exact client_at_rest hpc hl h hws hs hcidle hsidle hco
  · exact server_at_rest hpc h₀ hl h hwc hc hcidle hcq hsidle hso

section Sample

/-- The client connects, and has finished the Noise handshake. -/
def handshaking : List Event :=
  .setEndpoint "ws://a".toList ::
    (Loop.goingOnline "ws://a".toList).dropLast.map fun i => .loop i.2

def handshakenClient : WsClient (Snow.ideal Ideal.genuine) :=
  { (WsClient.new : WsClient (Snow.ideal Ideal.genuine)) with
    loop := handshaken
    url := some "ws://a".toList
    calls := [.endpointChanged] }

/-- The client authenticates, sends a request and an event, and gets its answer. -/
def callsMade : List (Event ⊕ ServedInput) :=
  [.inl (.loop (.authPayload (some [5]))), .inl (.loop (.sent (.ok ()))),
    .inr (.loop 0 (.next (some (.ok (.binary (smallPacket 1 0 5 0)))))),
    .inr (.loop 0 (.inboxed true)), .inr (.respond 1 [6]),
    .inr (.loop 0 (.cmd (.send ⟨1, .message, [6]⟩ .normal))), .inr (.loop 0 .proceed),
    .inr (.loop 0 (.sent (.ok ()))), .inr (.loop 0 .proceed),
    .inl (.loop (.next (some (.ok (.binary (smallPacket 1 0 6 0)))))),
    .inl (.loop (.authOutcome .success)), .inl (.request [8] .normal), .inl (.register 0),
    .inl (.permit 0), .inl (.enqueue 0), .inl (.sendEvent [9] .realTime),
    .inl (.loop (.cmd (.send ⟨2, .message, [8]⟩ .normal))), .inl (.loop (.sent (.ok ()))),
    .inl (.loop (.cmd (.send ⟨0, .event, [9]⟩ .realTime))), .inl (.loop .noCmd),
    .inl (.loop (.sent (.ok ()))), .inl (.loop .noCmd),
    .inr (.loop 0 (.next (some (.ok (.binary (smallPacket 2 0 8 1)))))),
    .inr (.loop 0 (.inboxed true)), .inr (.respond 2 [7]),
    .inr (.loop 0 (.cmd (.send ⟨2, .message, [7]⟩ .normal))), .inr (.loop 0 .proceed),
    .inr (.loop 0 (.sent (.ok ()))), .inr (.loop 0 .proceed),
    .inl (.loop (.next (some (.ok (.binary (smallPacket 2 0 7 1)))))), .inl (.resolve 0),
    .inr (.loop 0 (.next (some (.ok (.binary (smallPacket 0 1 9 2)))))),
    .inr (.loop 0 (.inboxed true))]

theorem run_handshaking : ∃ tr₀,
    (WsClient.machine .wire .sample (fun _ => true) (Snow.ideal Ideal.genuine)).run .new
      handshaking = some (handshakenClient, tr₀) :=
  ⟨_, rfl⟩

theorem run_callsMade : ∃ c s tr,
    (callers .wire .sample (fun _ => true) .sample (Snow.ideal Ideal.genuine)).run
        (.fresh handshakenClient, .fresh (.start .sample 0 (Ideal.session _))) callsMade =
      some ((c, s), tr) ∧
    (callers .wire .sample (fun _ => true) .sample (Snow.ideal Ideal.genuine)).Along
      (UnforgedCalls .wire .sample (fun _ => true) .sample _)
      (.fresh handshakenClient, .fresh (.start .sample 0 (Ideal.session _))) callsMade ∧
    PayloadsBelow .wire (2 ^ 32) (c.sealed.map (·.frame)) ∧
    PayloadsBelow .wire (2 ^ 32) (s.sealed.map (·.frame)) ∧
    gotByClient tr = [⟨1, .message, [6]⟩, ⟨2, .message, [7]⟩] ∧
    gotByServer tr = [⟨1, .message, [5]⟩, ⟨2, .message, [8]⟩, ⟨0, .event, [9]⟩] ∧
    .completed 0 (.ok [7]) ∈ lefts tr ∧ c.state.loop.idle ∧ dataSends c.state.queue = [] ∧
    s.state.idle ∧ c.opened = s.sealed.flatMap Sealed.packets ∧
    s.opened = c.sealed.flatMap Sealed.packets := by
  have hrun : (((callers .wire .sample (fun _ => true) .sample (Snow.ideal Ideal.genuine)).restrict
      (UnforgedCalls .wire .sample (fun _ => true) .sample _)).run
        (.fresh handshakenClient, .fresh (.start .sample 0 (Ideal.session _))) callsMade).any
        (fun x => PayloadsBelow .wire (2 ^ 32) (x.1.1.sealed.map (·.frame)) ∧
          PayloadsBelow .wire (2 ^ 32) (x.1.2.sealed.map (·.frame)) ∧
          gotByClient x.2 = [⟨1, .message, [6]⟩, ⟨2, .message, [7]⟩] ∧
          gotByServer x.2 = [⟨1, .message, [5]⟩, ⟨2, .message, [8]⟩, ⟨0, .event, [9]⟩] ∧
          .completed 0 (.ok [7]) ∈ lefts x.2 ∧ x.1.1.state.loop.idle ∧
          dataSends x.1.1.state.queue = [] ∧ x.1.2.state.idle ∧
          x.1.1.opened = x.1.2.sealed.flatMap Sealed.packets ∧
          x.1.2.opened = x.1.1.sealed.flatMap Sealed.packets) = true := by
    decide +kernel
  obtain ⟨⟨⟨c, s⟩, tr⟩, hr, hx⟩ := (Option.any_eq_true _ _).mp hrun
  obtain ⟨h, hG⟩ := Mealy.run_restrict.mp hr
  exact ⟨c, s, tr, h, hG, of_decide_eq_true hx⟩

theorem callers_to_client_callsMade : ∃ c s tr p scalls,
    (callers .wire .sample (fun _ => true) .sample (Snow.ideal Ideal.genuine)).run
        (.fresh handshakenClient, .fresh (.start .sample 0 (Ideal.session _))) callsMade =
      some ((c, s), tr) ∧
    ((Served.machine .wire .sample (Snow.ideal Ideal.genuine)).watch (Served.accepts .sample)).run
      (.start .sample 0 (Ideal.session _)) (rights callsMade) = some (p, scalls) ∧
    gotByClient tr = [⟨1, .message, [6]⟩, ⟨2, .message, [7]⟩] ∧
    gotByClient tr <+: Served.callFrames scalls := by
  obtain ⟨c, s, tr, h, hG, -, hs, hgot, -⟩ := run_callsMade
  obtain ⟨scalls, hw⟩ := Mealy.run_watch (Served.accepts .sample)
    (Endpoint.recorded_run (duplex_run h).2)
  exact ⟨c, s, tr, _, scalls, h, hw, hgot, callers_to_client Postcard.wire_lawful rfl h hG hw hs⟩

theorem callers_to_server_callsMade : ∃ c s tr w calls, ∃ (auth : Option Bytes) (rest : List Frame),
    (callers .wire .sample (fun _ => true) .sample (Snow.ideal Ideal.genuine)).run
        (.fresh handshakenClient, .fresh (.start .sample 0 (Ideal.session _))) callsMade =
      some ((c, s), tr) ∧
    ((WsClient.machine .wire .sample (fun _ => true) (Snow.ideal Ideal.genuine)).watch
      (WsClient.accepts .sample)).run handshakenClient (lefts callsMade) = some (w, calls) ∧
    gotByServer tr = [⟨1, .message, [5]⟩, ⟨2, .message, [8]⟩, ⟨0, .event, [9]⟩] ∧
    gotByServer tr = (auth.map (⟨1, .message, ·⟩)).toList ++ rest ∧
    Merges (fun k => substream k (dataSends handshakenClient.queue ++ calls)) rest := by
  obtain ⟨c, s, tr, h, hG, hc, -, -, hgot, -⟩ := run_callsMade
  obtain ⟨tr₀, h₀⟩ := run_handshaking
  obtain ⟨hrun, -⟩ := Mealy.run_restrict.mp (Endpoint.recorded_run (duplex_run h).1)
  obtain ⟨calls, hw⟩ := Mealy.run_watch (WsClient.accepts .sample) hrun
  obtain ⟨auth, rest, hall, -, hmerge⟩ := callers_to_server Postcard.wire_lawful h₀ rfl h hG hw hc
  exact ⟨c, s, tr, _, calls, auth, rest, h, hw, hgot, hall, hmerge⟩

theorem callers_answered_callsMade : ∃ c s tr p scalls,
    (callers .wire .sample (fun _ => true) .sample (Snow.ideal Ideal.genuine)).run
        (.fresh handshakenClient, .fresh (.start .sample 0 (Ideal.session _))) callsMade =
      some ((c, s), tr) ∧
    ((Served.machine .wire .sample (Snow.ideal Ideal.genuine)).watch (Served.accepts .sample)).run
      (.start .sample 0 (Ideal.session _)) (rights callsMade) = some (p, scalls) ∧
    ∃ r, c.state.requests[0]? = some r ∧ .inr (.respond r.id [7]) ∈ callsMade ∧
      .send ⟨r.id, .message, [7]⟩ .normal ∈ scalls := by
  obtain ⟨c, s, tr, h, hG, -, hs, -, -, hd, -⟩ := run_callsMade
  obtain ⟨tr₀, h₀⟩ := run_handshaking
  obtain ⟨scalls, hw⟩ := Mealy.run_watch (Served.accepts .sample)
    (Endpoint.recorded_run (duplex_run h).2)
  exact ⟨c, s, tr, _, scalls, h, hw, callers_answered Postcard.wire_lawful h₀ rfl h hG hw hs
    (by rintro r ⟨⟩) (mem_lefts.mp hd)⟩

theorem callers_at_rest_callsMade : ∃ c s tr w calls p scalls,
    (callers .wire .sample (fun _ => true) .sample (Snow.ideal Ideal.genuine)).run
        (.fresh handshakenClient, .fresh (.start .sample 0 (Ideal.session _))) callsMade =
      some ((c, s), tr) ∧
    ((WsClient.machine .wire .sample (fun _ => true) (Snow.ideal Ideal.genuine)).watch
      (WsClient.accepts .sample)).run handshakenClient (lefts callsMade) = some (w, calls) ∧
    ((Served.machine .wire .sample (Snow.ideal Ideal.genuine)).watch (Served.accepts .sample)).run
      (.start .sample 0 (Ideal.session _)) (rights callsMade) = some (p, scalls) ∧
    gotByClient tr = Served.callFrames scalls ∧
    ∃ (auth : Option Bytes) (rest : List Frame),
      gotByServer tr = (auth.map (⟨1, .message, ·⟩)).toList ++ rest ∧
      MergesAll (fun k => substream k (dataSends handshakenClient.queue ++ calls)) rest := by
  obtain ⟨c, s, tr, h, -, hc, hs, -, -, -, hcidle, hcq, hsidle, hco, hso⟩ := run_callsMade
  obtain ⟨tr₀, h₀⟩ := run_handshaking
  obtain ⟨hrun, -⟩ := Mealy.run_restrict.mp (Endpoint.recorded_run (duplex_run h).1)
  obtain ⟨calls, hwc⟩ := Mealy.run_watch (WsClient.accepts .sample) hrun
  obtain ⟨scalls, hws⟩ := Mealy.run_watch (Served.accepts .sample)
    (Endpoint.recorded_run (duplex_run h).2)
  exact ⟨c, s, tr, _, calls, _, scalls, h, hwc, hws, callers_at_rest Postcard.wire_lawful h₀ rfl h
    hwc hws hc hs hcidle hcq hsidle hco hso⟩

end Sample

end NotifiTransport

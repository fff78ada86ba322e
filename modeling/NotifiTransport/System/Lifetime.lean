import NotifiTransport.Client.Connections
import NotifiTransport.System.Calls

/-! # A client and the sessions that serve it

A client connects again and again, and each of its encrypted connections is served by a session of
its own. Over the whole life of the client a frame of a caller is delivered at most once, whatever
connections break, and a request is answered by a session only.
-/

namespace NotifiTransport

/-- A session with its handles that has served a connection, and the commands that its calls have
put in its channel. -/
structure Service (pc : Postcard) (scfg : WsServerConfig) (snow : Snow) where
  now : ℕ
  noise : NoiseSession snow
  inputs : List ServedInput
  record : Recorded (Served snow) (Sealed pc) (Bytes × Bytes)
  trace : List ServedEffect
  calls : List SessionCmd
  runs : (Served.conversation pc scfg snow).recorded.run (.fresh (.start scfg now noise)) inputs =
    some (record, trace)
  accepts : ((Served.machine pc scfg snow).watch (Served.accepts scfg)).run
    (.start scfg now noise) inputs = some (record.state, calls)

variable {pc : Postcard} {cfg : WsClientConfig} {parses : Text → Bool} {scfg : WsServerConfig}
  {snow : Snow}

/-- What the session has put in its inbox. -/
def Service.inbox (s : Service pc scfg snow) : List Frame :=
  delivered (s.trace.filterMap ServedEffect.session?)

theorem Service.exists_of_run {now : ℕ} {noise : NoiseSession snow} {inputs : List ServedInput}
    {record : Recorded (Served snow) (Sealed pc) (Bytes × Bytes)} {trace : List ServedEffect}
    (h : (Served.conversation pc scfg snow).recorded.run (.fresh (.start scfg now noise)) inputs =
      some (record, trace)) :
    ∃ s : Service pc scfg snow, s.record = record ∧
      s.inbox = delivered (trace.filterMap ServedEffect.session?) := by
  obtain ⟨calls, hw⟩ := Mealy.run_watch (Served.accepts scfg) (Endpoint.recorded_run h)
  exact ⟨⟨now, noise, inputs, record, trace, calls, h, hw⟩, rfl, rfl⟩

/-- The messages and events that the client has got on a connection, the auth response among
them. -/
def gotOn (c : WsClient.Connection pc snow) : List Frame :=
  dataFrames (received (c.trace.filterMap Output.loop?))

/-- The two ends of a connection: either side has opened the first of the packets that the other
side has sealed, and the payloads fit in their prefixes. -/
structure Matched (c : Recorded (WsClient snow) (Sealed pc) (Bytes × Bytes))
    (s : Recorded (Served snow) (Sealed pc) (Bytes × Bytes)) : Prop where
  toServer : s.opened <+: c.sealed.flatMap Sealed.packets
  toClient : c.opened <+: s.sealed.flatMap Sealed.packets
  clientPayloads : PayloadsBelow pc (2 ^ 32) (c.sealed.map (·.frame))
  serverPayloads : PayloadsBelow pc (2 ^ 32) (s.sealed.map (·.frame))

instance (c : Recorded (WsClient snow) (Sealed pc) (Bytes × Bytes))
    (s : Recorded (Served snow) (Sealed pc) (Bytes × Bytes)) : Decidable (Matched c s) :=
  decidable_of_iff (_ ∧ _ ∧ _ ∧ _)
    ⟨fun ⟨hs, hc, hcp, hsp⟩ => ⟨hs, hc, hcp, hsp⟩, fun ⟨hs, hc, hcp, hsp⟩ => ⟨hs, hc, hcp, hsp⟩⟩

/-- The session serves the connection. -/
def Serves (c : WsClient.Connection pc snow) (s : Service pc scfg snow) : Prop :=
  Matched c.record s.record

/-- The messages and events of the calls that have been sealed on a connection, with their
priorities. -/
def sentOn (c : WsClient.Connection pc snow) : List (Fin 4 × Frame) :=
  (fromQueues c.record.sealed).filter (! ·.2.isKeepalive)

/-- The auth frame of a connection, if there is one, and the rest of the inbox. -/
def inboxOf (x : Option Bytes × List Frame) : List Frame :=
  (x.1.map (⟨1, .message, ·⟩)).toList ++ x.2

variable {c : WsClient.Connection pc snow} {s : Service pc scfg snow}
  {cs : List (WsClient.Connection pc snow)} {ss : List (Service pc scfg snow)}

theorem Serves.got (hpc : pc.Lawful) (h : Serves c s)
    (hr : c.Runs (WsClient.conversation pc cfg parses snow)) (hc : c.entry.Handshaken) :
    gotOn c <+: Served.callFrames s.calls := by
  obtain ⟨url, noise, hp⟩ := hc
  obtain ⟨-, ho, -, hb⟩ := h
  exact (WsClient.conversation_received hpc hp hr hb ho).trans
    (Served.conversation_frames s.runs s.accepts)

theorem Serves.delivers (hpc : pc.Lawful) (h : Serves c s)
    (hr : c.Runs (WsClient.conversation pc cfg parses snow)) :
    ∃ (x : Option Bytes × List Frame) (ls : List (Fin 4 × Frame)), s.inbox = inboxOf x ∧
      (∀ b, x.1 = some b → .loop (.authPayload (some b)) ∈ c.inputs) ∧
      ls.map Prod.snd = x.2 ∧ ls <+: sentOn c := by
  obtain ⟨auth, ha, hframes⟩ := WsClient.conversation_frames hr
  obtain ⟨ho, -, hb, -⟩ := h
  have hgot := Served.conversation_delivered hpc s.runs hb ho
  rw [hframes, ← WsClient.map_labelled] at hgot
  obtain ⟨auth', rest, hauth, hinbox, hrest⟩ := inbox_cases hgot
  refine ⟨(auth', rest), (sentOn c).take rest.length, hinbox, fun b hb => ha b (hauth b hb), ?_,
    List.take_prefix _ _⟩
  rw [List.map_take]
  exact (List.prefix_iff_eq_take.mp hrest).symm

/-- The inboxes of all sessions, after their auth frames, hold frames that have been sealed on the
connections, in their order. -/
theorem delivers_all (hpc : pc.Lawful) (h : List.Forall₂ Serves cs ss)
    (hr : ∀ c ∈ cs, c.Runs (WsClient.conversation pc cfg parses snow)) :
    ∃ (xs : List (Option Bytes × List Frame)) (ls : List (Fin 4 × Frame)),
      ss.map Service.inbox = xs.map inboxOf ∧
      (∀ x ∈ xs, ∀ b, x.1 = some b →
        .loop (.authPayload (some b)) ∈ cs.flatMap (·.inputs)) ∧
      ls.map Prod.snd = xs.flatMap Prod.snd ∧ ls.Sublist (cs.flatMap sentOn) := by
  induction h with
  | nil => exact ⟨[], [], rfl, by simp, rfl, List.Sublist.refl _⟩
  | @cons c s cs ss hone _ ih =>
    obtain ⟨hc, hcs⟩ := List.forall_mem_cons.mp hr
    obtain ⟨x, l, hinbox, ha, hl, hle⟩ := hone.delivers hpc hc
    obtain ⟨xs, ls, hinboxes, has, hls, hles⟩ := ih hcs
    refine ⟨x :: xs, l ++ ls, ?_, ?_, ?_, ?_⟩
    · rw [List.map_cons, List.map_cons, hinbox, hinboxes]
    · intro y hy b hb
      rw [List.flatMap_cons]
      rcases List.mem_cons.mp hy with rfl | hy
      · exact List.mem_append_left _ (ha b hb)
      · exact List.mem_append_right _ (has y hy b hb)
    · rw [List.map_append, List.flatMap_cons, hl, hls]
    · rw [List.flatMap_cons]
      exact hle.sublist.append hles

theorem substream_sentOn (k : Fin 4) (cs : List (WsClient.Connection pc snow)) :
    substream k (cs.flatMap sentOn) =
      ((queuedIn k (cs.flatMap (·.record.sealed))).filter (·.kind != .pong)).filter
        (! ·.isKeepalive) := by
  rw [← WsClient.substream_labelled, fromQueues, List.filterMap_flatMap, List.filter_flatMap]
  rfl

section Life

variable {w w' : WsClient snow} {es : List Event} {tr : List Output} {calls : List (Fin 4 × Frame)}

/-- Whatever the client has received in its life it has received on its connections, on each of them
the first of the frames that `respond` and `push_event` have put in the channel of the session that
served it. -/
theorem life_to_client (hpc : pc.Lawful)
    (h : (WsClient.connections pc cfg parses snow).run (.new, []) es = some ((w, cs), tr))
    (hs : List.Forall₂ Serves cs ss) :
    dataFrames (received (tr.filterMap Output.loop?)) = cs.flatMap gotOn ∧
      List.Forall₂ (fun c (s : Service pc scfg snow) => gotOn c <+: Served.callFrames s.calls)
        cs ss := by
  have hv := WsClient.connections_visited h
  refine ⟨?_, ?_⟩
  · rw [WsClient.connections_received h, dataFrames, List.filter_flatMap]
    rfl
  · refine List.forall₂_iff_zip.mpr ⟨hs.length_eq, fun {c s} hcs => ?_⟩
    have hc : c ∈ cs := (List.of_mem_zip hcs).1
    exact ((List.forall₂_iff_zip.mp hs).2 hcs).got hpc (hv.runs c hc) (hv.entries c hc)

/-- Over all connections of its life, broken or not, what the sessions have put in their inboxes
after the auth frames is made of the frames that `request` and `send_event` have put in the client's
channel: each of them at most once, and for each priority in the order of the calls. -/
theorem life_to_server (hpc : pc.Lawful)
    (h : (WsClient.connections pc cfg parses snow).run (.new, []) es = some ((w, cs), tr))
    (hw : ((WsClient.machine pc cfg parses snow).watch (WsClient.accepts cfg)).run .new es =
      some (w', calls))
    (hs : List.Forall₂ Serves cs ss) :
    ∃ xs : List (Option Bytes × List Frame), ss.map Service.inbox = xs.map inboxOf ∧
      (∀ x ∈ xs, ∀ b, x.1 = some b → .loop (.authPayload (some b)) ∈ es) ∧
      MergesSome (fun k => substream k calls) (xs.flatMap Prod.snd) := by
  have hv := WsClient.connections_visited h
  obtain ⟨xs, ls, hinboxes, ha, hls, hle⟩ := delivers_all hpc hs hv.runs
  refine ⟨xs, hinboxes, ?_, ls, hls, fun k => ?_⟩
  · intro x hx b hb
    exact (WsClient.connections_inputs h).subset (ha x hx b hb)
  · have hsub : (substream k ls).Sublist (substream k (cs.flatMap sentOn)) := hle.filterMap _
    rw [substream_sentOn] at hsub
    exact hsub.trans ((List.filter_sublist).trans (WsClient.connections_sealed h hw k))

/-- A request returns `Ok` only with the data of a `respond` to its id which a session that served
the client has accepted. -/
theorem life_answered {i : ℕ} {data : Bytes} (hpc : pc.Lawful)
    (h : (WsClient.connections pc cfg parses snow).run (.new, []) es = some ((w, cs), tr))
    (hs : List.Forall₂ Serves cs ss) (hd : .completed i (.ok data) ∈ tr) :
    ∃ r, w.requests[i]? = some r ∧ ∃ s ∈ ss, .respond r.id data ∈ s.inputs ∧
      .send ⟨r.id, .message, data⟩ .normal ∈ s.calls := by
  have hrun : (WsClient.machine pc cfg parses snow).run .new es = some (w, tr) :=
    Mealy.run_visiting h
  rcases WsClient.run_sourced WsClient.routed_new hrun i data hd with ⟨r, hr, -⟩ | ⟨r, hr, hf⟩
  · cases hr
  · obtain ⟨hgot, hcs⟩ := life_to_client hpc h hs
    have hmem : (⟨r.id, .message, data⟩ : Frame) ∈ cs.flatMap gotOn := by
      rw [← hgot]
      exact List.mem_filter.mpr ⟨hf, rfl⟩
    obtain ⟨c, hc, hframe⟩ := List.mem_flatMap.mp hmem
    obtain ⟨n, hn, rfl⟩ := List.getElem_of_mem hc
    have hn' : n < ss.length := hcs.length_eq ▸ hn
    obtain ⟨hcall, hinput⟩ :=
      Served.run_accepts_respond ss[n].accepts ((hcs.get hn hn').subset hframe)
    exact ⟨r, hr, ss[n], List.getElem_mem hn', hinput, hcall⟩

end Life

section Sample

/-- From the first read of the flag to the end of the Noise handshake. -/
def handshakeOnly : List Event :=
  (Loop.goingOnline "ws://a".toList).dropLast.map fun i => .loop i.2

/-- The first connection breaks with an event that has been sealed but not sent; on the second one a
request is answered that was made while it was dialed. -/
def reconnecting : List Event :=
  .setEndpoint "ws://a".toList :: handshakeOnly ++
    [.loop (.authPayload none), .sendEvent [9] .realTime,
      .loop (.cmd (.send ⟨0, .event, [9]⟩ .realTime)), .loop (.sent (.ok ())), .loop .noCmd,
      .sendEvent [4] .normal, .loop (.cmd (.send ⟨0, .event, [4]⟩ .normal)),
      .loop (.sent (.error "reset".toList)), .loop .proceed, .loop (.autoReconnect true),
      .loop (.cancelFlag false), .loop (.url (some "ws://a".toList)), .tick (2 * 10 ^ 9),
      .loop .elapsed, .request [8] .normal, .register 0, .permit 0, .enqueue 0] ++
    handshakeOnly.drop 2 ++
    [.loop (.authPayload none), .loop (.cmd (.send ⟨2, .message, [8]⟩ .normal)),
      .loop (.sent (.ok ())), .loop .noCmd,
      .loop (.next (some (.ok (.binary (smallPacket 2 0 7 0))))), .resolve 0]

def firstServed : List ServedInput :=
  [.loop 0 (.next (some (.ok (.binary (smallPacket 0 1 9 0))))), .loop 0 (.inboxed true)]

def secondServed : List ServedInput :=
  [.loop 0 (.next (some (.ok (.binary (smallPacket 2 0 8 0))))), .loop 0 (.inboxed true),
    .respond 2 [7], .loop 0 (.cmd (.send ⟨2, .message, [7]⟩ .normal)), .loop 0 .proceed,
    .loop 0 (.sent (.ok ())), .loop 0 .proceed]

theorem run_reconnecting : ∃ (w : WsClient (Snow.ideal Ideal.genuine))
    (cs : List (WsClient.Connection .wire (Snow.ideal Ideal.genuine))) (tr : List Output)
    (ss : List (Service .wire .sample (Snow.ideal Ideal.genuine))),
    (WsClient.connections .wire .sample (fun _ => true) (Snow.ideal Ideal.genuine)).run (.new, [])
        reconnecting = some ((w, cs), tr) ∧ List.Forall₂ Serves cs ss ∧
      ss.map Service.inbox = [[⟨0, .event, [9]⟩], [⟨2, .message, [8]⟩]] ∧
      cs.flatMap gotOn = [⟨2, .message, [7]⟩] ∧ .completed 0 (.ok [7]) ∈ tr := by
  let serve := (Served.conversation .wire .sample (Snow.ideal Ideal.genuine)).recorded.run
    (.fresh (.start .sample 0 (Ideal.session _)))
  have hrun : ((WsClient.connections .wire .sample (fun _ => true) (Snow.ideal Ideal.genuine)).run
      (.new, []) reconnecting).any (fun x => (serve firstServed).any fun a =>
        (serve secondServed).any fun b =>
          List.Forall₂ Matched (x.1.2.map (·.record)) [a.1, b.1] ∧
          delivered (a.2.filterMap ServedEffect.session?) = [⟨0, .event, [9]⟩] ∧
          delivered (b.2.filterMap ServedEffect.session?) = [⟨2, .message, [8]⟩] ∧
          x.1.2.flatMap gotOn = [⟨2, .message, [7]⟩] ∧ .completed 0 (.ok [7]) ∈ x.2) = true := by
    decide +kernel
  obtain ⟨⟨⟨w, cs⟩, tr⟩, hr, hx⟩ := (Option.any_eq_true _ _).mp hrun
  obtain ⟨⟨a, atr⟩, ha, hx⟩ := (Option.any_eq_true _ _).mp hx
  obtain ⟨⟨b, btr⟩, hb, hx⟩ := (Option.any_eq_true _ _).mp hx
  obtain ⟨hmatched, hfirst, hsecond, hgot, hd⟩ := of_decide_eq_true hx
  obtain ⟨s, hs, hsi⟩ := Service.exists_of_run ha
  obtain ⟨t, ht, hti⟩ := Service.exists_of_run hb
  refine ⟨w, cs, tr, [s, t], hr, ?_, ?_, hgot, hd⟩
  · have hmap : [a, b] = [s, t].map Service.record := by simp [hs, ht]
    rw [hmap] at hmatched
    have hright := List.forall₂_map_right_iff.mp hmatched
    have hboth := List.forall₂_map_left_iff.mp hright
    exact hboth
  · simp [hsi, hti, hfirst, hsecond]

theorem life_to_server_reconnecting : ∃ (w : WsClient (Snow.ideal Ideal.genuine))
    (cs : List (WsClient.Connection .wire (Snow.ideal Ideal.genuine))) (tr : List Output)
    (ss : List (Service .wire .sample (Snow.ideal Ideal.genuine)))
    (calls : List (Fin 4 × Frame)) (xs : List (Option Bytes × List Frame)),
    (WsClient.connections .wire .sample (fun _ => true) (Snow.ideal Ideal.genuine)).run (.new, [])
        reconnecting = some ((w, cs), tr) ∧
      ss.map Service.inbox = [[⟨0, .event, [9]⟩], [⟨2, .message, [8]⟩]] ∧
      ss.map Service.inbox = xs.map inboxOf ∧
      MergesSome (fun k => substream k calls) (xs.flatMap Prod.snd) := by
  obtain ⟨w, cs, tr, ss, h, hs, hinbox, -, -⟩ := run_reconnecting
  obtain ⟨calls, hw⟩ := Mealy.run_watch (WsClient.accepts .sample) (Mealy.run_visiting h)
  obtain ⟨xs, hxs, -, hmerge⟩ := life_to_server Postcard.wire_lawful h hw hs
  exact ⟨w, cs, tr, ss, calls, xs, h, hinbox, hxs, hmerge⟩

theorem life_answered_reconnecting : ∃ (w : WsClient (Snow.ideal Ideal.genuine))
    (cs : List (WsClient.Connection .wire (Snow.ideal Ideal.genuine))) (tr : List Output)
    (r : Request) (ss : List (Service .wire .sample (Snow.ideal Ideal.genuine))),
    (WsClient.connections .wire .sample (fun _ => true) (Snow.ideal Ideal.genuine)).run (.new, [])
        reconnecting = some ((w, cs), tr) ∧
      .completed 0 (.ok [7]) ∈ tr ∧ w.requests[0]? = some r ∧
      ∃ s ∈ ss, .respond r.id [7] ∈ s.inputs ∧ .send ⟨r.id, .message, [7]⟩ .normal ∈ s.calls := by
  obtain ⟨w, cs, tr, ss, h, hs, -, -, hd⟩ := run_reconnecting
  obtain ⟨r, hr, hserved⟩ := life_answered Postcard.wire_lawful h hs hd
  exact ⟨w, cs, tr, r, ss, h, hd, hr, hserved⟩

end Sample

end NotifiTransport

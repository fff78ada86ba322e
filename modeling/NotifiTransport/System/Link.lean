import NotifiTransport.Client.Flow
import NotifiTransport.Server.Conversation

/-! # A client and a server on one connection

The client's loop from the end of its handshake and a session of the server, on the two ends of a
socket that an attacker controls: he decides which packets either side reads and when. Of the
cipher only this is assumed, that a side opens nothing but the next packet that the other side has
sealed.
-/

namespace NotifiTransport

/-- The two ends of an encrypted connection. -/
def link (pc : Postcard) (cfg : WsClientConfig) (scfg : SessionConfig) (snow : Snow) :
    Mealy (Recorded (Loop snow) (Sealed pc) (Bytes × Bytes) ×
      Recorded (Option (Session snow)) (Sealed pc) (Bytes × Bytes))
      ((ℕ × Input) ⊕ (ℕ × SessionInput)) (Effect ⊕ SessionEffect) :=
  duplex (Loop.conversation pc cfg snow) (Session.conversation pc scfg snow)

/-- Both ends open only what the other end has sealed, in its order. -/
def Unforged (pc : Postcard) (cfg : WsClientConfig) (scfg : SessionConfig) (snow : Snow) :
    Recorded (Loop snow) (Sealed pc) (Bytes × Bytes) ×
      Recorded (Option (Session snow)) (Sealed pc) (Bytes × Bytes) →
    (ℕ × Input) ⊕ (ℕ × SessionInput) → Prop :=
  Genuine (Loop.conversation pc cfg snow) (Session.conversation pc scfg snow) Sealed.packets
    Sealed.packets

instance (pc : Postcard) (cfg : WsClientConfig) (scfg : SessionConfig) (snow : Snow)
    (s : Recorded (Loop snow) (Sealed pc) (Bytes × Bytes) ×
      Recorded (Option (Session snow)) (Sealed pc) (Bytes × Bytes))
    (e : (ℕ × Input) ⊕ (ℕ × SessionInput)) : Decidable (Unforged pc cfg scfg snow s e) :=
  inferInstanceAs (Decidable (Genuine _ _ _ _ s e))

variable {pc : Postcard} {cfg : WsClientConfig} {scfg : SessionConfig} {snow : Snow}

/-- Whatever the attacker does, the auth response and the frames that the client dispatches are
the first frames that the session has sealed so far, and the frames that the session handles are
the first that the client has sealed so far. -/
theorem link_in_order {l : Loop snow} {url : Text} {a b : NoiseSession snow} {now : ℕ}
    {es : List ((ℕ × Input) ⊕ (ℕ × SessionInput))} {tr : List (Effect ⊕ SessionEffect)}
    {c : Recorded (Loop snow) (Sealed pc) (Bytes × Bytes)}
    {s : Recorded (Option (Session snow)) (Sealed pc) (Bytes × Bytes)} (hpc : pc.Lawful)
    (hl : l.phase = .authPayload url a)
    (h : (link pc cfg scfg snow).run (.fresh l, .fresh (some (.start scfg now b))) es =
      some ((c, s), tr))
    (hG : (link pc cfg scfg snow).Along (Unforged pc cfg scfg snow)
      (.fresh l, .fresh (some (.start scfg now b))) es)
    (hc : PayloadsBelow pc (2 ^ 32) (c.sealed.map (·.frame)))
    (hs : PayloadsBelow pc (2 ^ 32) (s.sealed.map (·.frame))) :
    received (lefts tr) <+: s.sealed.map (·.frame) ∧
      handled (rights tr) <+: c.sealed.map (·.frame) := by
  obtain ⟨hleft, hright⟩ := duplex_run h
  obtain ⟨ho, ho'⟩ := duplex_opened h hG List.nil_prefix List.nil_prefix
  constructor
  · exact (Loop.conversation_heard hl hleft).le hpc hs ho
  · exact (Session.conversation_heard hright).le hpc hc ho'

/-- The loop has finished its handshake. -/
def handshaken : Loop (Snow.ideal Ideal.genuine) :=
  ⟨.authPayload "ws://a".toList (Ideal.session _), 0, false⟩

/-- The packet that holds a frame with two bytes of header and one of data. -/
def smallPacket (id kind data : UInt8) (n : ℕ) : Bytes :=
  toLE32 4 ++ [id, kind, 1, data] ++ Ideal.tag n

/-- The client authenticates, the server answers, and the attacker replays the answer. -/
def authReplayed : List ((ℕ × Input) ⊕ (ℕ × SessionInput)) :=
  [.inl (0, .authPayload (some [5])), .inl (0, .sent (.ok ())),
    .inr (0, .next (some (.ok (.binary (smallPacket 1 0 5 0))))), .inr (0, .inboxed true),
    .inr (0, .cmd (.send ⟨1, .message, [6]⟩ .normal)), .inr (0, .proceed),
    .inr (0, .sent (.ok ())), .inr (0, .proceed),
    .inl (0, .next (some (.ok (.binary (smallPacket 1 0 6 0))))), .inl (0, .authOutcome .success),
    .inl (1, .next (some (.ok (.binary (smallPacket 1 0 6 0)))))]

theorem run_authReplayed : ∃ c s tr,
    (link .wire .sample ⟨4096, 30, 10⟩ (Snow.ideal Ideal.genuine)).run
        (.fresh handshaken, .fresh (some (.start ⟨4096, 30, 10⟩ 0 (Ideal.session _))))
        authReplayed = some ((c, s), tr) ∧
    (link .wire .sample ⟨4096, 30, 10⟩ (Snow.ideal Ideal.genuine)).Along
      (Unforged .wire .sample ⟨4096, 30, 10⟩ _)
      (.fresh handshaken, .fresh (some (.start ⟨4096, 30, 10⟩ 0 (Ideal.session _))))
      authReplayed ∧
    PayloadsBelow .wire (2 ^ 32) (c.sealed.map (·.frame)) ∧
    PayloadsBelow .wire (2 ^ 32) (s.sealed.map (·.frame)) ∧
    received (lefts tr) = [⟨1, .message, [6]⟩] ∧ handled (rights tr) = [⟨1, .message, [5]⟩] := by
  have hrun : (((link .wire .sample ⟨4096, 30, 10⟩ (Snow.ideal Ideal.genuine)).restrict
      (Unforged .wire .sample ⟨4096, 30, 10⟩ _)).run
        (.fresh handshaken, .fresh (some (.start ⟨4096, 30, 10⟩ 0 (Ideal.session _))))
        authReplayed).any (fun x => PayloadsBelow .wire (2 ^ 32) (x.1.1.sealed.map (·.frame)) ∧
          PayloadsBelow .wire (2 ^ 32) (x.1.2.sealed.map (·.frame)) ∧
          received (lefts x.2) = [⟨1, .message, [6]⟩] ∧
          handled (rights x.2) = [⟨1, .message, [5]⟩]) = true := by
    decide +kernel
  obtain ⟨⟨⟨c, s⟩, tr⟩, hr, hx⟩ := (Option.any_eq_true _ _).mp hrun
  obtain ⟨h, hG⟩ := Mealy.run_restrict.mp hr
  exact ⟨c, s, tr, h, hG, of_decide_eq_true hx⟩

theorem link_in_order_replayed : ∃ c s tr,
    (link .wire .sample ⟨4096, 30, 10⟩ (Snow.ideal Ideal.genuine)).run
        (.fresh handshaken, .fresh (some (.start ⟨4096, 30, 10⟩ 0 (Ideal.session _))))
        authReplayed = some ((c, s), tr) ∧
      received (lefts tr) = [⟨1, .message, [6]⟩] ∧ handled (rights tr) = [⟨1, .message, [5]⟩] ∧
      received (lefts tr) <+: s.sealed.map (·.frame) ∧
      handled (rights tr) <+: c.sealed.map (·.frame) := by
  obtain ⟨c, s, tr, h, hG, hc, hs, hr, hh⟩ := run_authReplayed
  exact ⟨c, s, tr, h, hr, hh, link_in_order Postcard.wire_lawful rfl h hG hc hs⟩

/-- Whatever either end writes after the handshake, and has still to write, are packets of the
frames that it has sealed; they go out in the order in which they were encrypted, and none of them
twice. -/
theorem link_written {l : Loop snow} {url : Text} {a b : NoiseSession snow} {now : ℕ}
    {es : List ((ℕ × Input) ⊕ (ℕ × SessionInput))} {tr : List (Effect ⊕ SessionEffect)}
    {c : Recorded (Loop snow) (Sealed pc) (Bytes × Bytes)}
    {s : Recorded (Option (Session snow)) (Sealed pc) (Bytes × Bytes)}
    (hl : l.phase = .authPayload url a)
    (h : (link pc cfg scfg snow).run (.fresh l, .fresh (some (.start scfg now b))) es =
      some ((c, s), tr)) :
    ((lefts tr).filterMap Effect.message? ++ c.state.unsent).Sublist
        (c.sealed.flatMap Sealed.wsMessages) ∧
      ((rights tr).filterMap SessionEffect.message? ++ s.state.elim [] Session.unsent).Sublist
        (s.sealed.flatMap Sealed.messages) := by
  obtain ⟨hleft, hright⟩ := duplex_run h
  constructor
  · exact Loop.conversation_written hl hleft
  · exact Session.conversation_written hright

theorem link_written_replayed : ∃ c s tr,
    (link .wire .sample ⟨4096, 30, 10⟩ (Snow.ideal Ideal.genuine)).run
        (.fresh handshaken, .fresh (some (.start ⟨4096, 30, 10⟩ 0 (Ideal.session _))))
        authReplayed = some ((c, s), tr) ∧
      ((lefts tr).filterMap Effect.message? ++ c.state.unsent).Sublist
        (c.sealed.flatMap Sealed.wsMessages) ∧
      ((rights tr).filterMap SessionEffect.message? ++ s.state.elim [] Session.unsent).Sublist
        (s.sealed.flatMap Sealed.messages) := by
  obtain ⟨c, s, tr, h, -⟩ := run_authReplayed
  exact ⟨c, s, tr, h, link_written rfl h⟩

end NotifiTransport

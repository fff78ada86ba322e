import NotifiTransport.Crypto.Session

/-! # The XX pattern

What snow promises about an initiator of the XX pattern. Its three messages do not depend on
a remote key that was preset in the builder: the responder's static key comes with message 2,
which proves that the responder has the private half of the key it presents.
-/

namespace NotifiTransport

/-- The course of an initiator with a given private key: the messages it writes, the static
key that an answer presents to it, if the answer is genuine, and the states in between. -/
structure XX (snow : Snow) where
  hello : Bytes → Bytes
  presented : Bytes → Bytes → Option Bytes
  final : Bytes → Bytes → Bytes
  Ready : Bytes → snow.Handshake → Prop
  Waiting : Bytes → snow.Handshake → Prop
  Answered : Bytes → Bytes → snow.Handshake → Prop
  client : ∀ priv key noise, NoiseSession.client snow (.ok priv) key = .ok noise →
    ∃ h, noise = ⟨some (.handshake h)⟩ ∧ Ready priv h
  write_hello : ∀ priv h, Ready priv h → ∃ h',
    snow.writeHandshake h [] 65535 = .ok (hello priv, h') ∧
      snow.isHandshakeFinished h' = false ∧ Waiting priv h'
  read_genuine : ∀ priv h m key, Waiting priv h → presented priv m = some key → ∃ p h',
    snow.readHandshake h m 65535 = .ok (p, h') ∧
      snow.isHandshakeFinished h' = false ∧ Answered priv m h'
  read_forged : ∀ priv h m, Waiting priv h → presented priv m = none → ∃ e,
    snow.readHandshake h m 65535 = .error e
  write_final : ∀ priv m h, Answered priv m h → ∃ h' t,
    snow.writeHandshake h [] 65535 = .ok (final priv m, h') ∧
      snow.isHandshakeFinished h' = true ∧ snow.intoTransportMode h' = .ok t

namespace XX

variable {snow : Snow} (X : XX snow) {priv m key : Bytes} {h : snow.Handshake}

theorem writeMessage_hello (hr : X.Ready priv h) : ∃ h',
    NoiseSession.writeMessage ⟨some (.handshake h)⟩ [] 65535 =
      (⟨some (.handshake h')⟩, .ok (X.hello priv)) ∧ X.Waiting priv h' := by
  obtain ⟨h', hw, hf, hw'⟩ := X.write_hello priv h hr
  exact ⟨h', by simp [NoiseSession.writeMessage, NoiseSession.afterHandshake, hw, hf], hw'⟩

theorem readMessage_genuine (hw : X.Waiting priv h) (hk : X.presented priv m = some key) :
    ∃ p h', NoiseSession.readMessage ⟨some (.handshake h)⟩ m 65535 =
      (⟨some (.handshake h')⟩, .ok p) ∧ X.Answered priv m h' := by
  obtain ⟨p, h', hr, hf, ha⟩ := X.read_genuine priv h m key hw hk
  exact ⟨p, h', by simp [NoiseSession.readMessage, NoiseSession.afterHandshake, hr, hf], ha⟩

theorem readMessage_forged (hw : X.Waiting priv h) (hk : X.presented priv m = none) :
    ∃ e, (NoiseSession.readMessage ⟨some (.handshake h)⟩ m 65535).2 = .error e := by
  obtain ⟨e, hr⟩ := X.read_forged priv h m hw hk
  exact ⟨.handshakeFailed e,
    by simp [NoiseSession.readMessage, NoiseSession.afterHandshake, hr]⟩

theorem writeMessage_final (ha : X.Answered priv m h) : ∃ t,
    NoiseSession.writeMessage ⟨some (.handshake h)⟩ [] 65535 =
      (⟨some (.transport t)⟩, .ok (X.final priv m)) := by
  obtain ⟨h', t, hw, hf, ht⟩ := X.write_final priv m h ha
  exact ⟨t, by simp [NoiseSession.writeMessage, NoiseSession.afterHandshake, hw, hf, ht]⟩

end XX

end NotifiTransport

import NotifiTransport.Core.Error

/-! # Noise sessions

`NoiseSession` wraps the handshake and transport states of the snow library, which is a
parameter here. The wrapped state is taken out before every call and only put back on
success, so a failed call leaves the session empty.
-/

namespace NotifiTransport

/-- `Noise_XX_25519_ChaChaPoly_BLAKE2b`. -/
def noisePattern : Text := "Noise_XX_25519_ChaChaPoly_BLAKE2b".toList

/-- Maximum Noise plaintext chunk size (65535 - 16 bytes AEAD tag). -/
def maxChunkPlain : ℕ := 65535 - 16

/-- The part of the snow library that the crate calls. A read or a write is given the
length of the caller's output buffer and returns the bytes written into it. -/
structure Snow where
  Builder : Type
  Handshake : Type
  Transport : Type
  builder : Text → Except Text Builder
  localPrivateKey : Builder → Bytes → Except Text Builder
  remotePublicKey : Builder → Bytes → Except Text Builder
  buildInitiator : Builder → Except Text Handshake
  buildResponder : Builder → Except Text Handshake
  writeHandshake : Handshake → Bytes → ℕ → Except Text (Bytes × Handshake)
  readHandshake : Handshake → Bytes → ℕ → Except Text (Bytes × Handshake)
  isHandshakeFinished : Handshake → Bool
  intoTransportMode : Handshake → Except Text Transport
  writeTransport : Transport → Bytes → ℕ → Except Text (Bytes × Transport)
  readTransport : Transport → Bytes → ℕ → Except Text (Bytes × Transport)

inductive NoiseState (snow : Snow) where
  | handshake (s : snow.Handshake)
  | transport (s : snow.Transport)

structure NoiseSession (snow : Snow) where
  state : Option (NoiseState snow)

namespace NoiseSession

variable {snow : Snow}

/-- Client-side session. `keypair` is the private key that `generate_keypair` returned,
`serverStaticKey` the pinned server key, if any. -/
def client (snow : Snow) (keypair : Except Text Bytes) (serverStaticKey : Option Bytes) :
    Except CryptoError (NoiseSession snow) := do
  let builder ← (snow.builder noisePattern).mapError .patternParse
  let priv ← keypair.mapError .handshakeFailed
  let builder ← (snow.localPrivateKey builder priv).mapError .handshakeFailed
  let builder ← match serverStaticKey with
    | some sk => (snow.remotePublicKey builder sk).mapError .handshakeFailed
    | none => .ok builder
  let handshake ← (snow.buildInitiator builder).mapError .handshakeFailed
  return ⟨some (.handshake handshake)⟩

/-- Server-side session with the server's own private key. -/
def server (snow : Snow) (staticKey : Bytes) : Except CryptoError (NoiseSession snow) := do
  let builder ← (snow.builder noisePattern).mapError .patternParse
  let builder ← (snow.localPrivateKey builder staticKey).mapError .handshakeFailed
  let handshake ← (snow.buildResponder builder).mapError .handshakeFailed
  return ⟨some (.handshake handshake)⟩

/-- The end of a handshake call: switch to transport mode once the handshake is over. -/
def afterHandshake (r : Except Text (Bytes × snow.Handshake)) :
    NoiseSession snow × Except CryptoError Bytes :=
  match r with
  | .error e => (⟨none⟩, .error (.handshakeFailed e))
  | .ok (out, s) =>
    if snow.isHandshakeFinished s then
      match snow.intoTransportMode s with
      | .error e => (⟨none⟩, .error (.handshakeFailed e))
      | .ok t => (⟨some (.transport t)⟩, .ok out)
    else (⟨some (.handshake s)⟩, .ok out)

/-- Process an incoming handshake or transport message. -/
def readMessage (noise : NoiseSession snow) (packet : Bytes) (bufLen : ℕ) :
    NoiseSession snow × Except CryptoError Bytes :=
  match noise.state with
  | none => (⟨none⟩, .error .invalidState)
  | some (.handshake s) => afterHandshake (snow.readHandshake s packet bufLen)
  | some (.transport s) =>
    match snow.readTransport s packet bufLen with
    | .error e => (⟨none⟩, .error (.decryptFailed e))
    | .ok (out, s) => (⟨some (.transport s)⟩, .ok out)

/-- Produce an outgoing handshake or transport message. -/
def writeMessage (noise : NoiseSession snow) (payload : Bytes) (bufLen : ℕ) :
    NoiseSession snow × Except CryptoError Bytes :=
  match noise.state with
  | none => (⟨none⟩, .error .invalidState)
  | some (.handshake s) => afterHandshake (snow.writeHandshake s payload bufLen)
  | some (.transport s) =>
    match snow.writeTransport s payload bufLen with
    | .error e => (⟨none⟩, .error (.encryptFailed e))
    | .ok (out, s) => (⟨some (.transport s)⟩, .ok out)

/-- The three-step handshake is complete. -/
def isFinished (noise : NoiseSession snow) : Bool :=
  match noise.state with
  | some (.transport _) => true
  | _ => false

/-- The loop of `encrypt_chunked` over the pieces of the payload. -/
def encryptPieces (noise : NoiseSession snow) :
    List Bytes → NoiseSession snow × Except CryptoError (List Bytes)
  | [] => (noise, .ok [])
  | chunk :: rest =>
    match noise.writeMessage chunk (chunk.length + 16) with
    | (noise, .error e) => (noise, .error e)
    | (noise, .ok packet) =>
      match encryptPieces noise rest with
      | (noise, .error e) => (noise, .error e)
      | (noise, .ok packets) => (noise, .ok (packet :: packets))

/-- Encrypt a payload into packets, each to be sent as one WS binary message. -/
def encryptChunked (noise : NoiseSession snow) (payload : Bytes) :
    NoiseSession snow × Except CryptoError (List Bytes) :=
  noise.encryptPieces (pieces maxChunkPlain payload)

/-- Decrypt packets back into one buffer. -/
def decryptChunked (noise : NoiseSession snow) :
    List Bytes → NoiseSession snow × Except CryptoError Bytes
  | [] => (noise, .ok [])
  | packet :: rest =>
    match noise.readMessage packet packet.length with
    | (noise, .error e) => (noise, .error e)
    | (noise, .ok out) =>
      match decryptChunked noise rest with
      | (noise, .error e) => (noise, .error e)
      | (noise, .ok tail) => (noise, .ok (out ++ tail))

variable {noise noise' : NoiseSession snow} {s : snow.Transport} {b c : Bytes} {n : ℕ}

theorem readMessage_transport_ok (h : NoiseSession.readMessage ⟨some (.transport s)⟩ b n =
    (noise', .ok c)) :
    ∃ s', snow.readTransport s b n = .ok (c, s') ∧ noise'.state = some (.transport s') := by
  simp only [readMessage] at h
  split at h
  · cases h
  · next out s' hr =>
    obtain ⟨rfl, hc⟩ := Prod.mk.inj h
    cases hc
    exact ⟨s', hr, rfl⟩

@[simp] theorem readMessage_none : NoiseSession.readMessage (⟨none⟩ : NoiseSession snow) b n =
    (⟨none⟩, .error .invalidState) := rfl

@[simp] theorem writeMessage_none : NoiseSession.writeMessage (⟨none⟩ : NoiseSession snow) b n =
    (⟨none⟩, .error .invalidState) := rfl

end NoiseSession

end NotifiTransport

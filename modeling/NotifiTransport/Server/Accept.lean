import NotifiTransport.Client.Config
import NotifiTransport.Client.Handshake
import NotifiTransport.Server.Session

/-! # Accepting a socket

`accept_ws_session` between its three reads of the socket, and the socket's whole course on
the server: the handshake, the task that comes out of it, and the session.
-/

namespace NotifiTransport

structure WsServerConfig where
  protocolName : Text
  protocolVersion : Text
  noisePrivateKey : Bytes
  maxPayloadBytes : ℕ
  heartbeatInterval : Duration
  heartbeatTimeout : Duration
  bufferSize : ℕ

namespace WsServerConfig

/-- `WsServerConfig::new`, or `none` where the validation panics. -/
def new (protocolName protocolVersion : Text) (noisePrivateKey : Bytes) : Option WsServerConfig :=
  if validateProtocolString protocolName && validateProtocolString protocolVersion then
    some {
      protocolName, protocolVersion, noisePrivateKey
      maxPayloadBytes := 4 * 1024 * 1024
      heartbeatInterval := .ofSecs 30
      heartbeatTimeout := .ofSecs 10
      bufferSize := 100 }
  else none

/-- The arguments that `run_server_session` is given. -/
def session (cfg : WsServerConfig) : SessionConfig where
  maxBytes := cfg.maxPayloadBytes
  heartbeatInterval := cfg.heartbeatInterval.nanos
  heartbeatTimeout := cfg.heartbeatTimeout.nanos

/-- The default configuration of a server of version `1.0.0`. -/
def sample : WsServerConfig :=
  (new "NOTIFI_APP".toList "1.0.0".toList (List.replicate 32 7)).get (by decide)

end WsServerConfig

/-- What a server's `ws.next()` returns. -/
abbrev MessageItem := Option (Except Text Message)

/-- At most so many repetitions of the pattern are removed. -/
def trimStartMatchesUpTo (pat : Text) : ℕ → Text → Text
  | 0, t => t
  | n + 1, t =>
    match stripPrefix pat t with
    | some t => trimStartMatchesUpTo pat n t
    | none => t

/-- `str::trim_start_matches` for a pattern that is not empty. -/
def trimStartMatches (pat t : Text) : Text := trimStartMatchesUpTo pat t.length t

/-- The version check on the client's first message. -/
def checkHello (cfg : WsServerConfig) (helloMsg : Text) : Except TransportError Unit :=
  let expectedPrefix := cfg.protocolName ++ [' ']
  if expectedPrefix <+: helloMsg then
    let clientVersion := trim (trimStartMatches expectedPrefix helloMsg)
    if clientVersion = cfg.protocolVersion then .ok ()
    else .error (.versionMismatch clientVersion cfg.protocolVersion)
  else .error .protocolHandshakeFailed

variable {snow : Snow}

/-- Read `<- E` and write `-> E, EE, S, ES`. -/
def acceptReply (noise : NoiseSession snow) (data : Bytes) :
    Except TransportError (NoiseSession snow × Bytes) :=
  match noise.readMessage data 65535 with
  | (_, .error e) => .error (.noiseHandshakeFailed e.toText)
  | (noise, .ok _) => handshakeWrite noise

/-- Read `<- S, SE`. -/
def acceptFinish (noise : NoiseSession snow) (data : Bytes) :
    Except TransportError (NoiseSession snow) :=
  match noise.readMessage data 65535 with
  | (_, .error e) => .error (.noiseHandshakeFailed e.toText)
  | (noise, .ok _) =>
    if noise.isFinished then .ok noise
    else .error (.noiseHandshakeFailed "handshake not complete".toList)

/-- The calls of `ws.next()` in `accept_ws_session`. -/
inductive AcceptStage (snow : Snow) where
  | hello
  /-- `<- E`. -/
  | key (noise : NoiseSession snow)
  /-- `<- S, SE`. -/
  | final (noise : NoiseSession snow)

/-- What is written before the next read or the return, and which of the two it is. -/
abbrev AcceptStep (snow : Snow) :=
  List Message × (AcceptStage snow ⊕ Except TransportError (NoiseSession snow))

namespace AcceptStage

variable (cfg : WsServerConfig) (send : Message → Except Text Unit)

/-- After `PROTOCOL_ACCEPTED` the session is created. -/
def acceptHello (snow : Snow) : AcceptStage snow ⊕ Except TransportError (NoiseSession snow) :=
  match send (.text protocolAccepted) with
  | .error e => .inr (.error (.connectionFailed e))
  | .ok () =>
    match NoiseSession.server snow cfg.noisePrivateKey with
    | .error e => .inr (.error (.noiseHandshakeFailed e.toText))
    | .ok noise => .inl (.key noise)

def acceptKey (noise : NoiseSession snow) (data : Bytes) : AcceptStep snow :=
  match acceptReply noise data with
  | .error e => ([], .inr (.error e))
  | .ok (noise, m) =>
    match send (.binary m) with
    | .error e => ([.binary m], .inr (.error (.connectionFailed e)))
    | .ok () => ([.binary m], .inl (.final noise))

/-- The code from one `ws.next()` to the next. A rejected hello is answered as well, whether or
not the answer can be written. -/
def next : AcceptStage snow → MessageItem → AcceptStep snow
  | hello, some (.ok (.text helloMsg)) =>
    match checkHello cfg helloMsg with
    | .error e => ([.text (protocolRejected ++ ' ' :: cfg.protocolVersion)], .inr (.error e))
    | .ok () => ([.text protocolAccepted], acceptHello cfg send snow)
  | hello, _ => ([], .inr (.error .protocolHandshakeFailed))
  | key noise, some (.ok (.binary data)) => acceptKey send noise data
  | key _, _ => ([], .inr (.error (.noiseHandshakeFailed "step 1: no E".toList)))
  | final noise, some (.ok (.binary data)) => ([], .inr (acceptFinish noise data))
  | final _, _ => ([], .inr (.error (.noiseHandshakeFailed "step 3: no S,SE".toList)))

end AcceptStage

/-- An incoming socket. -/
inductive Serving (snow : Snow) where
  | accepting (stage : AcceptStage snow)
  /-- `accept_ws_session` has returned an error. -/
  | refused
  /-- Its task has not been polled yet. -/
  | accepted (noise : NoiseSession snow)
  | session (s : Option (Session snow))

inductive ServingEffect (snow : Snow) where
  | send (m : Message)
  /-- The result of `accept_ws_session`, up to the channels that it creates. -/
  | returned (r : Except TransportError (NoiseSession snow))
  | session (e : SessionEffect)

namespace Serving

variable (pc : Postcard) (cfg : WsServerConfig) (send : Message → Except Text Unit)

/-- What becomes of the socket when `accept_ws_session` reads on or returns. -/
def afterRead : AcceptStep snow → Serving snow × List (ServingEffect snow)
  | (ms, .inl stage) => (accepting stage, ms.map .send)
  | (ms, .inr (.error e)) => (refused, ms.map .send ++ [.returned (.error e)])
  | (ms, .inr (.ok noise)) => (accepted noise, ms.map .send ++ [.returned (.ok noise)])

/-- An incoming socket as a machine that reads inputs with the current time. `send` is the
result of a write during the handshake. -/
def machine (snow : Snow) : Mealy (Serving snow) (ℕ × SessionInput) (ServingEffect snow) where
  step p i :=
    match p, i.2 with
    | accepting stage, .next item => some (afterRead (stage.next cfg send item))
    | accepted noise, .proceed => some (session (some (.start cfg.session i.1 noise)), [])
    | session s, _ =>
      ((Session.machine pc cfg.session snow).step s i).map fun r =>
        (session r.1, r.2.map .session)
    | _, _ => none

end Serving

end NotifiTransport

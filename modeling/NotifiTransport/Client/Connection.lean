import NotifiTransport.Client.Handshake
import NotifiTransport.Client.MessageLoop

/-! # The connection loop

`connection_loop` as a machine. A phase names the point where the code is suspended,
together with the local variables that are still in use there; `url` is the endpoint that
the current iteration has read.
-/

namespace NotifiTransport

inductive Phase (snow : Snow) where
  | top
  | readUrl
  /-- No endpoint is set: wait for `EndpointChanged`. -/
  | parked
  | backoff (url : Text) (deadline : ℕ)
  | connecting (url : Text)
  | sendHello (url : Text)
  | awaitReply (url : Text)
  /-- The wait of `handle_version_handshake` after a rejection. -/
  | versionRejected (url : Text)
  | noiseKeypair (url : Text)
  | noiseSendE (url : Text) (noise : NoiseSession snow)
  | noiseAwait (url : Text) (noise : NoiseSession snow)
  | noiseSendS (url : Text) (noise : NoiseSession snow)
  | authPayload (url : Text) (noise : NoiseSession snow)
  | authSend (url : Text) (noise : NoiseSession snow) (rest : List Bytes)
  | authAwait (url : Text) (noise : NoiseSession snow) (acc : FrameAccumulator) (deadline : ℕ)
  | authProcess (url : Text) (noise : NoiseSession snow)
  /-- The two terminal waits of `connection_loop` itself. -/
  | terminal (url : Text)
  | online (url : Text) (m : MsgLoop snow)
  /-- `run_message_loop` has returned. -/
  | offline
  | checkAuto
  /-- Auto-reconnect is off: wait for the user. -/
  | manual
  | stopped
  | panicked

/-- The local variables of `connection_loop` and the point it has reached. -/
structure Loop (snow : Snow) where
  phase : Phase snow
  reconnectAttempt : UInt32
  everConnected : Bool

namespace Loop

variable {snow : Snow} (pc : Postcard) (cfg : WsClientConfig) (now : ℕ)

def init : Loop snow := ⟨.top, 0, false⟩

def goto (l : Loop snow) (phase : Phase snow) : Loop snow := { l with phase }

/-- `reconnect_attempt += 1; continue`, where the counter wraps as in a release build. -/
def retry (l : Loop snow) : Loop snow :=
  { l with phase := .top, reconnectAttempt := l.reconnectAttempt + 1 }

/-- `reconnect_attempt = 0` and back to the top. -/
def restart (l : Loop snow) : Loop snow := { l with phase := .top, reconnectAttempt := 0 }

/-- Publish the error of an attempt and retry. -/
def fail (l : Loop snow) (e : Text) : Loop snow × List Effect := (l.retry, [.publish (.error e)])

/-- The code from the end of the backoff to `WsStream::connect`. -/
def dial (l : Loop snow) (url : Text) : Loop snow × List Effect :=
  (l.goto (.connecting url), [.publish .connecting, .dial url])

/-- From the endpoint just read to the next await. -/
def onUrl (l : Loop snow) : Option Text → Loop snow × List Effect
  | none => (l.goto .parked, [.publish .disconnected])
  | some url =>
    match cfg.backoff.nextDelay l.reconnectAttempt with
    | none => (l.goto .panicked, [.nextDelay l.reconnectAttempt none])
    | some delay =>
      let called := Effect.nextDelay l.reconnectAttempt (some delay)
      if 0 < delay.nanos then
        (l.goto (.backoff url (now + delay.nanos)),
          if l.everConnected then
            [called, .publish (.reconnecting l.reconnectAttempt delay)]
          else [called])
      else
        let r := l.dial url
        (r.1, called :: r.2)

/-- A command that interrupts the backoff. -/
def onBackoffCmd (l : Loop snow) : ClientCmd → Loop snow
  | .reconnect | .endpointChanged => l.restart
  | _ => l.goto .top

/-- The caller's handling of an error of `handle_version_handshake`. -/
def versionFailed (l : Loop snow) (url : Text) : Option ConnectionState →
    Loop snow × List Effect
  | some (.versionMismatch client server) =>
    (l.goto (.terminal url), [.publish (.versionMismatch client server), .clearPending])
  | some s => (l.retry, [.publish s])
  | none => (l.retry, [])

def onVersionReply (l : Loop snow) (url : Text) : VersionReply → Loop snow × List Effect
  | .accepted => (l.goto (.noiseKeypair url), [.publish .authenticating])
  | .rejected server =>
    (l.goto (.versionRejected url),
      [.publish (.versionMismatch cfg.protocolVersion server), .clearPending])
  | .failed e => l.versionFailed url (some (.error e))

/-- `reconnect_attempt = 0`, `Online`, and into the message loop. -/
def goOnline (url : Text) (noise : NoiseSession snow) : Loop snow × List Effect :=
  (⟨.online url (MsgLoop.start cfg now noise), 0, true⟩, [.publish .online])

/-- An error of `handle_auth` other than `Unauthorized`. -/
def authFailed (l : Loop snow) (e : TransportError) : Loop snow × List Effect := l.fail e.toText

def authChunks (l : Loop snow) (url : Text) (noise : NoiseSession snow) :
    List Bytes → Loop snow × List Effect
  | [] => (l.goto (.authAwait url noise .new (now + cfg.authTimeout.nanos)), [])
  | c :: cs => (l.goto (.authSend url noise cs), [.send (.binary c)])

def onAuthPayload (l : Loop snow) (url : Text) (noise : NoiseSession snow) :
    Option Bytes → Loop snow × List Effect
  | none => goOnline cfg now url noise
  | some authBytes =>
    let authFrame : Frame := ⟨1, .message, authBytes⟩
    let waiting := Effect.publish .waitingForAuth
    let r := match encodeFrame pc authFrame with
      | .error e => l.authFailed e
      | .ok encoded =>
        match noise.encryptChunked encoded with
        | (_, .error _) => l.authFailed .connectionClosed
        | (noise, .ok chunks) => l.authChunks cfg now url noise chunks
    (r.1, waiting :: r.2)

/-- One item of the stream inside `recv_one_frame`, and what `handle_auth` does with the
frame that it completes. -/
def onAuthItem (l : Loop snow) (url : Text) (noise : NoiseSession snow)
    (acc : FrameAccumulator) (deadline : ℕ) : WsItem → Loop snow × List Effect
  | some (.ok (.binary data)) =>
    match receive pc noise acc data cfg.maxPayloadBytes with
    | .error _ => l.authFailed .connectionClosed
    | .ok (noise, acc, none) => (l.goto (.authAwait url noise acc deadline), [])
    | .ok (noise, _, some f) =>
      if f.id = 1 then (l.goto (.authProcess url noise), [.authFrame f, .process f.data])
      else l.authFailed .connectionClosed
  | _ => l.authFailed .connectionClosed

def onAuthOutcome (l : Loop snow) (url : Text) (noise : NoiseSession snow) :
    AuthOutcome → Loop snow × List Effect
  | .success => goOnline cfg now url noise
  | .unauthorized =>
    (l.goto (.terminal url),
      [.publish .unauthorized, .publish .unauthorized, .clearPending])
  | .failed => l.authFailed .connectionClosed
  | .retryWithNewPayload _ => l.authFailed .connectionClosed

/-- A wait that only the listed commands and a cancellation can end. -/
def waitFor (l : Loop snow) (wakes : ClientCmd → Bool) (woken cancelled : Loop snow) :
    Input → Option (Loop snow × List Effect)
  | .cancelled => some (cancelled, [])
  | .cmd c => some (if wakes c then woken else l, [])
  | _ => none

def isEndpointChanged : ClientCmd → Bool
  | .endpointChanged => true
  | _ => false

def isControl : ClientCmd → Bool
  | .endpointChanged | .reconnect => true
  | _ => false

def isWake : ClientCmd → Bool
  | .wakeUp | .reconnect | .endpointChanged => true
  | _ => false

/-- One step of `connection_loop`. -/
def step (l : Loop snow) (i : Input) : Option (Loop snow × List Effect) :=
  match l.phase with
  | .top =>
    match i with
    | .cancelFlag b => some (l.goto (if b then .stopped else .readUrl), [])
    | _ => none
  | .readUrl =>
    match i with
    | .url u => some (l.onUrl cfg now u)
    | _ => none
  | .parked => l.waitFor isEndpointChanged (l.goto .top) (l.goto .stopped) i
  | .backoff url _ =>
    match i with
    | .cancelled => some (l.goto .stopped, [])
    | .elapsed => some (l.dial url)
    | .cmd c => some (l.onBackoffCmd c, [])
    | _ => none
  | .connecting url =>
    match i with
    | .connected (.ok ()) =>
      some (l.goto (.sendHello url), [.publish .handshaking,
        .send (.text (cfg.protocolName ++ [' '] ++ cfg.protocolVersion))])
    | .connected (.error e) => some (l.fail e)
    | _ => none
  | .sendHello url =>
    match i with
    | .sent (.ok ()) => some (l.goto (.awaitReply url), [])
    | .sent (.error e) => some (l.versionFailed url (some (.error e)))
    | _ => none
  | .awaitReply url =>
    match i with
    | .next m => some (l.onVersionReply cfg url (versionReply m))
    | _ => none
  | .versionRejected url =>
    let returned := l.versionFailed url none
    l.waitFor isControl returned.1 returned.1 i
  | .noiseKeypair url =>
    match i with
    | .keypair kp =>
      match noiseStart snow cfg.noiseServerKey kp with
      | .error _ => some (l.retry, [])
      | .ok (noise, e) => some (l.goto (.noiseSendE url noise), [.send (.binary e)])
    | _ => none
  | .noiseSendE url noise =>
    match i with
    | .sent (.ok ()) => some (l.goto (.noiseAwait url noise), [])
    | .sent (.error _) => some (l.retry, [])
    | _ => none
  | .noiseAwait url noise =>
    match i with
    | .next m =>
      match noiseReply noise m with
      | .error _ => some (l.retry, [])
      | .ok (noise, s) => some (l.goto (.noiseSendS url noise), [.send (.binary s)])
    | _ => none
  | .noiseSendS url noise =>
    match i with
    | .sent (.ok ()) =>
      match noiseFinish noise with
      | .error _ => some (l.retry, [])
      | .ok noise => some (l.goto (.authPayload url noise), [.noiseFinished])
    | .sent (.error _) => some (l.retry, [])
    | _ => none
  | .authPayload url noise =>
    match i with
    | .authPayload p => some (l.onAuthPayload pc cfg now url noise p)
    | _ => none
  | .authSend url noise rest =>
    match i with
    | .sent (.ok ()) => some (l.authChunks cfg now url noise rest)
    | .sent (.error _) => some (l.authFailed .connectionClosed)
    | _ => none
  | .authAwait url noise acc deadline =>
    match i with
    | .next m => some (l.onAuthItem pc cfg url noise acc deadline m)
    | .elapsed => some (l.authFailed .connectionClosed)
    | _ => none
  | .authProcess url noise =>
    match i with
    | .authOutcome o => some (l.onAuthOutcome cfg now url noise o)
    | _ => none
  | .terminal _ => l.waitFor isWake l.restart (l.goto .stopped) i
  | .online url m =>
    (m.step pc cfg now i).map fun r =>
      (l.goto (match r.1 with
        | none => .offline
        | some m => .online url m), r.2)
  | .offline =>
    match i with
    | .proceed => some (l.goto .checkAuto, [.publish .disconnected, .clearPending])
    | _ => none
  | .checkAuto =>
    match i with
    | .autoReconnect true => some ({ l with phase := .top, reconnectAttempt := 1 }, [])
    | .autoReconnect false => some (l.goto .manual, [])
    | _ => none
  | .manual => l.waitFor isControl (l.goto .top) (l.goto .stopped) i
  | .stopped => none
  | .panicked => none

/-- The connection loop as a machine that reads inputs with the current time. -/
def machine (snow : Snow) : Mealy (Loop snow) (ℕ × Input) Effect where
  step l i := (l.step pc cfg i.1 i.2).map fun r => (r.1, .resumed i.2 :: r.2)

end Loop

end NotifiTransport

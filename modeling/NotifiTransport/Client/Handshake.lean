import NotifiTransport.Client.Events
import NotifiTransport.Frame.Transfer
import NotifiTransport.Lib.Trim

/-! # The handshakes of a connection attempt

The code of `handle_version_handshake`, `handle_noise_handshake` and `recv_one_frame`
between their await points. `handleNoiseHandshake` puts the pieces of the Noise handshake
together against a peer that answers as it likes.
-/

namespace NotifiTransport

/-- `char::is_whitespace`, the Unicode property `White_Space`. -/
def isWhitespace (c : Char) : Bool :=
  let n := c.toNat
  (0x09 ≤ n && n ≤ 0x0d) || n == 0x20 || n == 0x85 || n == 0xa0 || n == 0x1680 ||
    (0x2000 ≤ n && n ≤ 0x200a) || n == 0x2028 || n == 0x2029 || n == 0x202f || n == 0x205f ||
    n == 0x3000

def trim (t : Text) : Text :=
  ((t.dropWhile isWhitespace).reverse.dropWhile isWhitespace).reverse

theorem trim_eq_trimBy (t : Text) : trim t = Trim.trimBy isWhitespace t := rfl

def stripPrefix (pat t : Text) : Option Text :=
  if pat <+: t then some (t.drop pat.length) else none

def protocolAccepted : Text := "PROTOCOL_ACCEPTED".toList
def protocolRejected : Text := "PROTOCOL_REJECTED".toList

/-- What `handle_version_handshake` makes of the first answer of the server. -/
inductive VersionReply where
  | accepted
  | rejected (server : Text)
  | failed (e : Text)
  deriving DecidableEq

def versionReply : WsItem → VersionReply
  | some (.ok (.text reply)) =>
    if protocolAccepted <:+: reply then .accepted
    else if protocolRejected <:+: reply then
      .rejected (trim ((stripPrefix (protocolRejected ++ [' ']) reply).getD "unknown".toList))
    else .failed "Invalid handshake reply".toList
  | some (.ok (.binary _)) => .failed "Invalid handshake reply".toList
  | some (.error e) => .failed e
  | none => .failed "Connection closed during handshake".toList

variable {snow : Snow}

/-- `write_message` with an empty payload into the 65535 byte handshake buffer. -/
def handshakeWrite (noise : NoiseSession snow) :
    Except TransportError (NoiseSession snow × Bytes) :=
  match noise.writeMessage [] 65535 with
  | (_, .error e) => .error (.noiseHandshakeFailed e.toText)
  | (noise, .ok packet) => .ok (noise, packet)

/-- Create the session and write `-> E`. -/
def noiseStart (snow : Snow) (key : Option Bytes) (keypair : Except Text Bytes) :
    Except TransportError (NoiseSession snow × Bytes) :=
  match NoiseSession.client snow keypair key with
  | .error e => .error (.noiseHandshakeFailed e.toText)
  | .ok noise => handshakeWrite noise

/-- Read `<- E, EE, S, ES` and write `-> S, SE`. -/
def noiseReply (noise : NoiseSession snow) : WsItem →
    Except TransportError (NoiseSession snow × Bytes)
  | some (.ok (.binary data)) =>
    match noise.readMessage data 65535 with
    | (_, .error e) => .error (.noiseHandshakeFailed e.toText)
    | (noise, .ok _) => handshakeWrite noise
  | _ => .error .connectionClosed

def noiseFinish (noise : NoiseSession snow) : Except TransportError (NoiseSession snow) :=
  if noise.isFinished then .ok noise
  else .error (.noiseHandshakeFailed "Handshake not finished".toList)

/-- The other end of the socket during the Noise handshake: whether the two messages can
be sent, and what is received after the first. -/
structure NoisePeer where
  sendE : Bytes → Except Text Unit
  answer : Bytes → WsItem
  sendS : Bytes → Except Text Unit

/-- `handle_noise_handshake` against a peer. -/
def handleNoiseHandshake (snow : Snow) (key : Option Bytes) (keypair : Except Text Bytes)
    (peer : NoisePeer) : Except TransportError (NoiseSession snow) := do
  let (noise, e) ← noiseStart snow key keypair
  (peer.sendE e).mapError .connectionFailed
  let (noise, s) ← noiseReply noise (peer.answer e)
  (peer.sendS s).mapError .connectionFailed
  noiseFinish noise

/-- `recv_one_frame` over the results of `ws.next()`, up to the one that makes it return;
`none` when it still waits after the last. -/
def recvOneFrame (pc : Postcard) (noise : NoiseSession snow) (acc : FrameAccumulator)
    (maxBytes : ℕ) : List WsItem → Option (NoiseSession snow × Except TransportError Frame)
  | [] => none
  | some (.ok (.binary data)) :: rest =>
    match receive pc noise acc data maxBytes with
    | .error e => some (noise, .error e)
    | .ok (noise, acc, none) => recvOneFrame pc noise acc maxBytes rest
    | .ok (noise, _, some f) => some (noise, .ok f)
  | _ :: _ => some (noise, .error .connectionClosed)

end NotifiTransport

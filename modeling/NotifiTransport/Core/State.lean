import NotifiTransport.Core.Duration
import NotifiTransport.Core.Error

/-! # Connection states and WebSocket messages -/

namespace NotifiTransport

/-- Lifecycle state of a transport connection, as published on the state watch. -/
inductive ConnectionState where
  | disconnected
  | connecting
  | reconnecting (attempt : UInt32) (delay : Duration)
  | handshaking
  | authenticating
  | waitingForAuth
  | online
  | unauthorized
  | versionMismatch (client server : Text)
  | error (e : Text)
  deriving DecidableEq, Repr

/-- Reconnect attempts should stop. -/
def ConnectionState.isTerminal : ConnectionState → Bool
  | unauthorized | versionMismatch _ _ => true
  | _ => false

/-- What `WsStream` yields and accepts; control frames never reach the reader. -/
inductive WsMessage where
  | text (t : Text)
  | binary (b : Bytes)
  deriving DecidableEq, Repr

/-- One result of `ws.next()`: the end of the stream, a socket error or a message. -/
abbrev WsItem := Option (Except Text WsMessage)

end NotifiTransport

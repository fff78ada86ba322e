import NotifiTransport.Client.Backoff
import NotifiTransport.Core.Error
import NotifiTransport.Frame.Basic
import NotifiTransport.Scheduler.Wfq

/-! # Client configuration and commands -/

namespace NotifiTransport

/-- `validate_protocol_string` does not panic. -/
def validateProtocolString (s : Text) : Bool :=
  s.all fun c => c.isAlphanum || c == '.' || c == '-' || c == '_'

structure WsClientConfig where
  protocolName : Text
  protocolVersion : Text
  heartbeatInterval : Duration
  heartbeatTimeout : Duration
  requestTimeout : Duration
  authTimeout : Duration
  maxPayloadBytes : ℕ
  noiseServerKey : Option Bytes
  backoff : BackoffStrategy
  bufferSize : ℕ

/-- The default strategy: 2 s, doubled after each failure, at most 30 s. -/
def defaultBackoff : ExponentialBackoff where
  initialDelay := .fromSecs 2 (by decide)
  multiplier := 2
  maxDelay := .fromSecs 30 (by decide)

/-- `WsClientConfig::new`, or `none` where the validation panics. -/
def WsClientConfig.new (protocolName protocolVersion : Text) : Option WsClientConfig :=
  if validateProtocolString protocolName && validateProtocolString protocolVersion then
    some {
      protocolName, protocolVersion
      heartbeatInterval := .fromSecs 30 (by decide)
      heartbeatTimeout := .fromSecs 10 (by decide)
      requestTimeout := .fromSecs 30 (by decide)
      authTimeout := .fromSecs 15 (by decide)
      maxPayloadBytes := 4 * 1024 * 1024
      noiseServerKey := none
      backoff := defaultBackoff.strategy
      bufferSize := 100 }
  else none

/-- The default configuration of a client of version `1.0.0`. -/
def WsClientConfig.sample : WsClientConfig :=
  (WsClientConfig.new "NOTIFI_APP".toList "1.0.0".toList).get (by decide)

inductive ClientCmd where
  | send (frame : Frame) (priority : MessagePriority)
  | endpointChanged
  | reconnect
  | wakeUp
  deriving DecidableEq, Repr

inductive AuthOutcome where
  | success
  | unauthorized
  | failed
  | retryWithNewPayload (payload : Bytes)
  deriving DecidableEq, Repr

end NotifiTransport

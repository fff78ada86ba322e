import NotifiTransport.Client.Config
import NotifiTransport.Core.State

/-! # What the connection loop waits for and what it does

The loop is a machine between its await points. An `Input` is the result of the operation
it was suspended in, or the value it reads from a variable shared with the callers. An
`Effect` is something others can observe, listed in the order in which the code does it.
-/

namespace NotifiTransport

inductive Input where
  /-- No await: the loop runs on to its next read or await. -/
  | proceed
  /-- `self.cancel.is_cancelled()`. -/
  | cancelFlag (b : Bool)
  /-- `self.url.read().clone()`. -/
  | url (u : Option Text)
  /-- `self.auto_reconnect()`. -/
  | autoReconnect (b : Bool)
  /-- The branch `self.cancel.cancelled()` of a `select!`. -/
  | cancelled
  /-- The sleep or timeout of the current wait. -/
  | elapsed
  /-- `cmd_rx.recv()`, or `cmd_rx.try_recv()` with a command. -/
  | cmd (c : ClientCmd)
  /-- `cmd_rx.try_recv()` on an empty channel. -/
  | noCmd
  | connected (r : Except Text Unit)
  | sent (r : Except Text Unit)
  | next (m : WsItem)
  | closed
  /-- The private key of `generate_keypair`. -/
  | keypair (r : Except Text Bytes)
  | authPayload (p : Option Bytes)
  | authOutcome (o : AuthOutcome)
  deriving DecidableEq

inductive Effect where
  /-- The loop went on with this input. -/
  | resumed (i : Input)
  /-- `backoff.next_delay(attempt)`, with `none` for a panic. -/
  | nextDelay (attempt : UInt32) (delay : Option Duration)
  | publish (s : ConnectionState)
  | dial (url : Text)
  | send (m : WsMessage)
  | close
  /-- `handle_noise_handshake` returned a session. -/
  | noiseFinished
  /-- `recv_one_frame` returned this frame before the timeout. -/
  | authFrame (f : Frame)
  /-- `process_auth_response` was called with these bytes. -/
  | process (response : Bytes)
  /-- A frame was taken from the scheduler and encrypted. -/
  | transmit (f : Frame)
  /-- The last chunk of the frame was written. -/
  | wrote (f : Frame)
  /-- `dispatch_frame` was called. -/
  | dispatch (f : Frame)
  /-- `pending.retain(|_, _| false)`. -/
  | clearPending
  deriving DecidableEq

end NotifiTransport

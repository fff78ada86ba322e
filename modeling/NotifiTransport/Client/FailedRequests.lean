import NotifiTransport.Client.Leftovers
import NotifiTransport.Client.StaleCommands
import NotifiTransport.Client.TakenRequests

/-! # Requests that have failed

A call of `request` that returns an error removes its entry, but not its command. What can still be
written of its frame is bounded by the copies of it that wait in the channel and in the scheduler
of the open connection; each further copy is one that another call has sent.
-/

namespace NotifiTransport

def ClientCmd.carries (f : Frame) : ClientCmd → Bool
  | .send g _ => g = f
  | _ => false

/-- The frame that the loop takes with this input. -/
def Input.carries (f : Frame) : Input → ℕ
  | .cmd c => if c.carries f then 1 else 0
  | _ => 0

namespace MsgLoop

variable {snow : Snow} {pc : Postcard} {cfg : WsClientConfig} {now : ℕ} {m : MsgLoop snow}
  {i : Input} {r : Option (MsgLoop snow) × List Effect} {f : Frame}

/-- The copies of the frame in the scheduler of a message loop that may have returned. -/
def copies (f : Frame) : Option (MsgLoop snow) → ℕ
  | none => 0
  | some m => m.scheduler.items.count f

end MsgLoop

namespace Loop

variable {snow : Snow} {pc : Postcard} {cfg : WsClientConfig} {now : ℕ} {l : Loop snow}
  {i : Input} {r : Loop snow × List Effect} {f : Frame}

/-- The copies of the frame in the scheduler of the open connection, which takes none any more when
it is being closed at its end. -/
def copies (f : Frame) (l : Loop snow) : ℕ :=
  match l.phase with
  | .online _ m => if m.phase = .closing then 0 else m.scheduler.items.count f
  | _ => 0

/-- The message loop goes on. -/
def writes (l : Loop snow) : Bool :=
  match l.phase with
  | .online _ m => m.phase ≠ .closing
  | _ => false

end Loop

namespace WsClient

variable {snow : Snow} {pc : Postcard} {cfg : WsClientConfig} {parses : Text → Bool}
  {w w' m : WsClient snow} {e : Event} {es : List Event} {tr o v : List Output} {f : Frame}

/-- Between the end of a connection and the test of the flag, where a cancelled loop returns before
it dials again. -/
def heldUp (w : WsClient snow) : Bool :=
  match w.loop.phase with
  | .top | .parked | .versionRejected _ | .terminal _ | .offline | .checkAuto | .manual => true
  | .backoff _ _ => w.ready
  | .online _ m => m.phase = .closing
  | _ => false

/-- The loop has returned, or will do so without another attempt. -/
def finished (w : WsClient snow) : Bool := !w.loop.alive || w.cancelled && w.heldUp

/-- The channel grows by at most `n` copies of the frame, and the loop has not seen them where it
waits. -/
def Gains (f : Frame) (n : ℕ) (w w' : WsClient snow) : Prop :=
  w'.ready = w.ready ∧
    ∃ sent : List ClientCmd, w'.queue = w.queue ++ sent ∧ sent.countP (·.carries f) ≤ n

theorem Gains.of_eq {n : ℕ} (hr : w'.ready = w.ready) (hq : w'.queue = w.queue) : Gains f n w w' :=
  ⟨hr, [], by simp [hq], Nat.zero_le _⟩

end WsClient

end NotifiTransport

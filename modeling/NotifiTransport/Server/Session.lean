import NotifiTransport.Core.State
import NotifiTransport.Frame.Transfer
import NotifiTransport.Lib.Mealy
import NotifiTransport.Scheduler.Wfq

/-! # The server session

`run_server_session` as a machine between its await points, in the manner of the client's
message loop. The scheduler is drained in one branch of the `select!` only, the one that
takes a `Send` command.
-/

namespace NotifiTransport

inductive SessionCmd where
  | send (frame : Frame) (priority : MessagePriority)
  | close
  deriving DecidableEq, Repr

/-- `tungstenite::Message` as the reader of a socket gets it. -/
inductive Message where
  | text (t : Text)
  | binary (b : Bytes)
  | ping (b : Bytes)
  | pong (b : Bytes)
  | close
  deriving DecidableEq, Repr

inductive SessionInput where
  /-- No await: the loop over the scheduler goes on. -/
  | proceed
  | next (m : Option (Except Text Message))
  | cmd (c : SessionCmd)
  /-- The heartbeat timer. -/
  | elapsed
  | sent (r : Except Text Unit)
  /-- `inbox_tx.send(frame)` has returned; `false` when the reader is gone. -/
  | inboxed (ok : Bool)
  | closed
  deriving DecidableEq

inductive SessionEffect where
  /-- The loop went on with this input. -/
  | resumed (i : SessionInput)
  /-- A frame was decoded and handled: put in the inbox, or as a Ping or a Pong. -/
  | handled (f : Frame)
  | deliver (f : Frame)
  /-- `scheduler.enqueue` was called. -/
  | queued (f : Frame)
  /-- All chunks of a frame from the scheduler were written. -/
  | wrote (f : Frame)
  | pinged
  | send (m : Message)
  | publish (s : ConnectionState)
  | close
  deriving DecidableEq

inductive SessionPhase where
  | select
  /-- `inbox_tx.send(frame)`. -/
  | inboxing
  /-- The head of `while let Some(frame) = scheduler.next()`. -/
  | pumping
  | writing (f : Frame) (rest : List Bytes)
  | pinging (rest : List Bytes)
  /-- `ws.close()` after the loop. -/
  | closing
  deriving DecidableEq

structure Session (snow : Snow) where
  phase : SessionPhase
  noise : NoiseSession snow
  accumulator : FrameAccumulator
  scheduler : WfqScheduler Frame
  heartbeatDeadline : ℕ
  waitingForPong : Bool

structure SessionConfig where
  maxBytes : ℕ
  heartbeatInterval : ℕ
  heartbeatTimeout : ℕ

def pongFrame : Frame := ⟨0, .pong, []⟩

namespace Session

variable {snow : Snow} (pc : Postcard) (cfg : SessionConfig) (now : ℕ)

/-- The state in which `run_server_session` first reaches its `select!`. -/
def start (noise : NoiseSession snow) : Session snow where
  phase := .select
  noise := noise
  accumulator := .new
  scheduler := .new
  heartbeatDeadline := now + cfg.heartbeatInterval
  waitingForPong := false

/-- `break`, and the code after the loop up to `ws.close()`. -/
def finish (s : Session snow) : Session snow × List SessionEffect :=
  ({ s with phase := .closing }, [.publish .disconnected, .close])

/-- What the session does with a frame it has decoded. -/
def handle (s : Session snow) (f : Frame) : Session snow × List SessionEffect :=
  match f.kind with
  | .ping =>
    ({ s with scheduler := s.scheduler.enqueue pongFrame .realTime },
      [.handled f, .queued pongFrame])
  | .pong => (s, [.handled f])
  | _ => ({ s with phase := .inboxing }, [.handled f, .deliver f])

def onPacket (s : Session snow) (data : Bytes) : Session snow × List SessionEffect :=
  match receive pc s.noise s.accumulator data cfg.maxBytes with
  | .error _ => s.finish
  | .ok (noise, accumulator, f) =>
    let s' : Session snow := { s with
      noise, accumulator
      heartbeatDeadline := now + cfg.heartbeatInterval
      waitingForPong := false }
    match f with
    | none => (s', [])
    | some f => s'.handle f

def onCmd (s : Session snow) : SessionCmd → Session snow × List SessionEffect
  | .send frame priority =>
    ({ s with scheduler := s.scheduler.enqueue frame priority, phase := .pumping },
      [.queued frame])
  | .close => s.finish

def writeChunks (s : Session snow) (f : Frame) : List Bytes → Session snow × List SessionEffect
  | [] => ({ s with phase := .pumping }, [.wrote f])
  | c :: cs => ({ s with phase := .writing f cs }, [.send (.binary c)])

def pump (s : Session snow) : Session snow × List SessionEffect :=
  match s.scheduler.pop with
  | (none, scheduler) => ({ s with scheduler, phase := .select }, [])
  | (some f, scheduler) =>
    match encodeFrame pc f with
    | .error _ => finish { s with scheduler }
    | .ok encoded =>
      match s.noise.encryptChunked encoded with
      | (noise, .error _) => finish { s with scheduler, noise }
      | (noise, .ok chunks) => writeChunks { s with scheduler, noise } f chunks

/-- The end of the heartbeat branch. -/
def pingSent (s : Session snow) : Session snow :=
  { s with
    phase := .select
    waitingForPong := true
    heartbeatDeadline := now + cfg.heartbeatTimeout }

def pingChunks (s : Session snow) : List Bytes → Session snow × List SessionEffect
  | [] => (s.pingSent cfg now, [.pinged])
  | c :: cs => ({ s with phase := .pinging cs }, [.send (.binary c)])

def onHeartbeat (s : Session snow) : Session snow × List SessionEffect :=
  if s.waitingForPong then s.finish
  else
    match encodeFrame pc ⟨0, .ping, []⟩ with
    | .error _ => (s.pingSent cfg now, [])
    | .ok encoded =>
      match s.noise.encryptChunked encoded with
      | (noise, .error _) => (pingSent cfg now { s with noise }, [])
      | (noise, .ok chunks) => pingChunks cfg now { s with noise } chunks

/-- One step of `run_server_session`; the first component is `none` when it returns. -/
def step (s : Session snow) (i : SessionInput) :
    Option (Option (Session snow) × List SessionEffect) :=
  match s.phase, i with
  | .select, .next (some (.ok (.binary data))) =>
    some (let r := s.onPacket pc cfg now data; (some r.1, r.2))
  | .select, .next _ => some (let r := s.finish; (some r.1, r.2))
  | .select, .cmd c => some (let r := s.onCmd c; (some r.1, r.2))
  | .select, .elapsed => some (let r := s.onHeartbeat pc cfg now; (some r.1, r.2))
  | .inboxing, .inboxed true => some (some { s with phase := .select }, [])
  | .inboxing, .inboxed false => some (let r := s.finish; (some r.1, r.2))
  | .pumping, .proceed => some (let r := s.pump pc; (some r.1, r.2))
  | .writing f rest, .sent (.ok ()) => some (let r := s.writeChunks f rest; (some r.1, r.2))
  | .writing _ _, .sent (.error _) => some (let r := s.finish; (some r.1, r.2))
  | .pinging rest, .sent (.ok ()) => some (let r := s.pingChunks cfg now rest; (some r.1, r.2))
  | .pinging _, .sent (.error _) => some (some (s.pingSent cfg now), [])
  | .closing, .closed => some (none, [])
  | _, _ => none

/-- The session as a machine that reads inputs with the current time. -/
def machine (snow : Snow) :
    Mealy (Option (Session snow)) (ℕ × SessionInput) SessionEffect where
  step s i :=
    match s with
    | none => none
    | some s => (s.step pc cfg i.1 i.2).map fun r => (r.1, .resumed i.2 :: r.2)

variable {pc cfg} {t t' : Option (Session snow)} {i : ℕ × SessionInput} {o : List SessionEffect}

theorem machine_step : (machine pc cfg snow).step t i = some (t', o) ↔
    ∃ s r, t = some s ∧ s.step pc cfg i.1 i.2 = some r ∧ t' = r.1 ∧ o = .resumed i.2 :: r.2 := by
  rcases t with _ | s
  · simp [machine]
  · simp only [machine, Option.map_eq_some_iff, Prod.mk.injEq, Option.some.injEq]
    constructor
    · rintro ⟨r, hr, rfl, rfl⟩
      exact ⟨s, r, rfl, hr, rfl, rfl⟩
    · rintro ⟨_, r, rfl, hr, rfl, rfl⟩
      exact ⟨r, hr, rfl, rfl⟩

theorem step_of_closing {s : Session snow} {now : ℕ} {i : SessionInput}
    {r : Option (Session snow) × List SessionEffect} (hp : s.phase = .closing)
    (h : s.step pc cfg now i = some r) : r = (none, []) := by
  cases i <;> simp [step, hp] at h
  exact h.symm

/-- The head of the loop over the scheduler: nothing is left, the session ends, or the chunks of
a frame follow. -/
theorem pump_cases (pc : Postcard) (s : Session snow) :
    (∃ scheduler, s.scheduler.pop = (none, scheduler) ∧
        s.pump pc = ({ s with scheduler, phase := .select }, [])) ∨
      (∃ s', s.pump pc = finish s') ∨
      ∃ f scheduler payload noise chunks, s.scheduler.pop = (some f, scheduler) ∧
        s.noise.encryptChunked payload = (noise, .ok chunks) ∧
        s.pump pc = writeChunks { s with scheduler, noise } f chunks := by
  unfold pump
  split
  · next scheduler hpop => exact Or.inl ⟨scheduler, hpop, rfl⟩
  · next f scheduler hpop =>
    split
    · exact Or.inr (Or.inl ⟨_, rfl⟩)
    · next encoded _ =>
      split
      · exact Or.inr (Or.inl ⟨_, rfl⟩)
      · next noise chunks hs =>
        exact Or.inr (Or.inr ⟨f, scheduler, encoded, noise, chunks, hpop, hs, rfl⟩)

/-- The heartbeat branch ends the session, or comes to its end with or without a Ping. -/
theorem onHeartbeat_cases (pc : Postcard) (cfg : SessionConfig) (now : ℕ) (s : Session snow) :
    s.onHeartbeat pc cfg now = s.finish ∨
      s.onHeartbeat pc cfg now = (s.pingSent cfg now, []) ∨
      ∃ payload noise e, s.noise.encryptChunked payload = (noise, e) ∧
        (s.onHeartbeat pc cfg now = (pingSent cfg now { s with noise }, []) ∨
          ∃ chunks, s.onHeartbeat pc cfg now = pingChunks cfg now { s with noise } chunks) := by
  unfold onHeartbeat
  split
  · exact Or.inl rfl
  · split
    · exact Or.inr (Or.inl rfl)
    · next encoded _ =>
      split
      · next noise e hs => exact Or.inr (Or.inr ⟨encoded, noise, _, hs, Or.inl rfl⟩)
      · next noise chunks hs =>
        exact Or.inr (Or.inr ⟨encoded, noise, _, hs, Or.inr ⟨chunks, rfl⟩⟩)

end Session

end NotifiTransport

import NotifiTransport.Client.Events
import NotifiTransport.Frame.Transfer
import NotifiTransport.Lib.Mealy

/-! # The message loop of an open connection

`run_message_loop` as a machine. A step returns the next state, or `none` when the loop
breaks, and the effects of the step. Outside `select` the code is suspended in a branch of
the `select!`, so no other branch is polled.
-/

namespace NotifiTransport

inductive MsgPhase where
  | select
  /-- `ws.send` of a chunk of `f`, with the chunks that come after it. -/
  | writing (f : Frame) (rest : List Bytes)
  /-- The loop over `cmd_rx.try_recv()`. -/
  | draining (disconnect : Bool)
  /-- `ws.close()` inside that loop. -/
  | drainClosing
  /-- `ws.send` of a chunk of a heartbeat. -/
  | pinging (rest : List Bytes)
  /-- `ws.close()` before `break`. -/
  | closing
  deriving DecidableEq

structure MsgLoop (snow : Snow) where
  phase : MsgPhase
  noise : NoiseSession snow
  accumulator : FrameAccumulator
  scheduler : WfqScheduler Frame
  heartbeatDeadline : ℕ
  waitingForPong : Bool
  /-- `ws.close()` has been called on the socket. -/
  closed : Bool

def pingFrame : Frame := ⟨0, .ping, []⟩

namespace MsgLoop

variable {snow : Snow} (pc : Postcard) (cfg : WsClientConfig) (now : ℕ)

/-- The state in which `run_message_loop` first reaches its `select!`. -/
def start (noise : NoiseSession snow) : MsgLoop snow where
  phase := .select
  noise := noise
  accumulator := .new
  scheduler := .new
  heartbeatDeadline := now + cfg.heartbeatInterval.nanos
  waitingForPong := false
  closed := false

def writeChunks (m : MsgLoop snow) (f : Frame) : List Bytes → MsgLoop snow × List Effect
  | [] => ({ m with phase := .draining false }, [.wrote f])
  | c :: cs => ({ m with phase := .writing f cs }, [.send (.binary c)])

/-- The head of `while let Some(frame) = scheduler.next()`. -/
def pump (m : MsgLoop snow) : Option (MsgLoop snow) × List Effect :=
  match m.scheduler.pop with
  | (none, scheduler) => (some { m with scheduler, phase := .select }, [])
  | (some f, scheduler) =>
    match encodeFrame pc f with
    | .error _ => (none, [])
    | .ok encoded =>
      match m.noise.encryptChunked encoded with
      | (_, .error _) => (none, [])
      | (noise, .ok chunks) =>
        let r := writeChunks { m with scheduler, noise } f chunks
        (some r.1, .transmit f :: r.2)

def onPacket (m : MsgLoop snow) (data : Bytes) : Option (MsgLoop snow) × List Effect :=
  let heartbeatDeadline := now + cfg.heartbeatInterval.nanos
  match receive pc m.noise m.accumulator data cfg.maxPayloadBytes with
  | .error _ => (none, [])
  | .ok (noise, accumulator, f) =>
    (some { m with noise, accumulator, heartbeatDeadline, waitingForPong := false },
      (f.map Effect.dispatch).toList)

def onCmd (m : MsgLoop snow) : ClientCmd → Option (MsgLoop snow) × List Effect
  | .send frame priority =>
    pump pc { m with scheduler := m.scheduler.enqueue frame priority }
  | .endpointChanged | .reconnect => (some { m with phase := .closing, closed := true }, [.close])
  | .wakeUp => (some m, [])

/-- The end of the heartbeat branch. -/
def pingSent (m : MsgLoop snow) : MsgLoop snow :=
  { m with
    phase := .select
    waitingForPong := true
    heartbeatDeadline := now + cfg.heartbeatTimeout.nanos }

def pingChunks (m : MsgLoop snow) : List Bytes → MsgLoop snow × List Effect
  | [] => (m.pingSent cfg now, [.wrote pingFrame])
  | c :: cs => ({ m with phase := .pinging cs }, [.send (.binary c)])

def onHeartbeat (m : MsgLoop snow) : Option (MsgLoop snow) × List Effect :=
  if m.waitingForPong then (some { m with phase := .closing, closed := true }, [.close])
  else
    match encodeFrame pc pingFrame with
    | .error _ => (some (m.pingSent cfg now), [])
    | .ok encoded =>
      match m.noise.encryptChunked encoded with
      | (noise, .error _) => (some (pingSent cfg now { m with noise }), [])
      | (noise, .ok chunks) =>
        let r := pingChunks cfg now { m with noise } chunks
        (some r.1, .transmit pingFrame :: r.2)

def onDrain (m : MsgLoop snow) (disconnect : Bool) :
    ClientCmd → Option (MsgLoop snow) × List Effect
  | .send frame priority =>
    (some { m with
      scheduler := m.scheduler.enqueue frame priority
      phase := .draining disconnect }, [])
  | .endpointChanged | .reconnect =>
    (some { m with phase := .drainClosing, closed := true }, [.close])
  | .wakeUp => (some { m with phase := .draining disconnect }, [])

/-- One step of `run_message_loop`; the first component is `none` when it returns. -/
def step (m : MsgLoop snow) (i : Input) : Option (Option (MsgLoop snow) × List Effect) :=
  match m.phase with
  | .select =>
    match i with
    | .cancelled => some (none, [])
    | .next (some (.ok (.binary data))) => some (m.onPacket pc cfg now data)
    | .next _ => some (none, [])
    | .cmd c => some (m.onCmd pc c)
    | .elapsed => some (m.onHeartbeat pc cfg now)
    | _ => none
  | .writing f rest =>
    match i with
    | .sent (.ok ()) =>
      let r := m.writeChunks f rest
      some (some r.1, r.2)
    | .sent (.error _) => some (none, [])
    | _ => none
  | .draining disconnect =>
    match i with
    | .cmd c => some (m.onDrain disconnect c)
    -- A disconnect only ends the inner loop: the code goes back to `select!`.
    | .noCmd => some (if disconnect then (some { m with phase := .select }, []) else m.pump pc)
    | _ => none
  | .drainClosing =>
    match i with
    | .closed => some (some { m with phase := .draining true }, [])
    | _ => none
  | .pinging rest =>
    match i with
    | .sent (.ok ()) =>
      let r := m.pingChunks cfg now rest
      some (some r.1, r.2)
    | .sent (.error _) => some (some (m.pingSent cfg now), [])
    | _ => none
  | .closing =>
    match i with
    | .closed => some (none, [])
    | _ => none

/-- The message loop as a machine that reads inputs with the current time. -/
def machine (snow : Snow) : Mealy (Option (MsgLoop snow)) (ℕ × Input) Effect where
  step s i :=
    match s with
    | none => none
    | some m => (m.step pc cfg i.1 i.2).map fun r => (r.1, .resumed i.2 :: r.2)

/-- The head of the loop over the scheduler: nothing is left, the message loop returns, or the
chunks of a frame follow. -/
theorem pump_cases (pc : Postcard) (m : MsgLoop snow) :
    (∃ scheduler, m.scheduler.pop = (none, scheduler) ∧
        m.pump pc = (some { m with scheduler, phase := .select }, [])) ∨
      m.pump pc = (none, []) ∨
      ∃ f scheduler payload noise chunks, m.scheduler.pop = (some f, scheduler) ∧
        encodeFrame pc f = .ok payload ∧ m.noise.encryptChunked payload = (noise, .ok chunks) ∧
        m.pump pc = (some (writeChunks { m with scheduler, noise } f chunks).1,
          .transmit f :: (writeChunks { m with scheduler, noise } f chunks).2) := by
  unfold pump
  split
  · next scheduler hpop => exact Or.inl ⟨scheduler, hpop, rfl⟩
  · next f scheduler hpop =>
    split
    · exact Or.inr (Or.inl rfl)
    · next encoded he =>
      split
      · exact Or.inr (Or.inl rfl)
      · next noise chunks hs =>
        exact Or.inr (Or.inr ⟨f, scheduler, encoded, noise, chunks, hpop, he, hs, rfl⟩)

/-- The heartbeat branch closes the socket, or comes to its end with or without a Ping. -/
theorem onHeartbeat_cases (pc : Postcard) (cfg : WsClientConfig) (now : ℕ) (m : MsgLoop snow) :
    m.onHeartbeat pc cfg now = (some { m with phase := .closing, closed := true }, [.close]) ∨
      m.onHeartbeat pc cfg now = (some (m.pingSent cfg now), []) ∨
      ∃ payload noise e, encodeFrame pc pingFrame = .ok payload ∧
        m.noise.encryptChunked payload = (noise, e) ∧
        ((∃ err, e = .error err ∧
            m.onHeartbeat pc cfg now = (some (pingSent cfg now { m with noise }), [])) ∨
          ∃ chunks, e = .ok chunks ∧ m.onHeartbeat pc cfg now =
            (some (pingChunks cfg now { m with noise } chunks).1,
              .transmit pingFrame :: (pingChunks cfg now { m with noise } chunks).2)) := by
  unfold onHeartbeat
  split
  · exact Or.inl rfl
  · split
    · exact Or.inr (Or.inl rfl)
    · next encoded he =>
      split
      · next noise e hs =>
        exact Or.inr (Or.inr ⟨encoded, noise, _, he, hs, Or.inl ⟨e, rfl, rfl⟩⟩)
      · next noise chunks hs =>
        exact Or.inr (Or.inr ⟨encoded, noise, _, he, hs, Or.inr ⟨chunks, rfl, rfl⟩⟩)

end MsgLoop

end NotifiTransport

import NotifiTransport.Client.Connection
import Mathlib.Data.List.AList

/-! # The client as its callers see it

`WsClient` with the state that its methods share with the background loop, and the requests
in progress. A machine interleaves the loop's steps with the calls: a call that takes more
than one atomic action (a store, then `try_send`) takes more than one event.
-/

namespace NotifiTransport

/-- The receiving end of a oneshot channel, as its owner can find it. -/
inductive Oneshot where
  | empty
  | value (data : Bytes)
  /-- The sender was dropped. -/
  | closed
  deriving DecidableEq, Repr

/-- The progress of a call of `request`. -/
inductive Stage where
  /-- It has its id, but is not yet in `pending`. -/
  | drawn
  /-- It waits in `cmd_tx.send` for room in the channel. -/
  | registered
  /-- A slot of the channel is reserved for it. -/
  | permitted
  | waiting (deadline : ℕ)
  /-- It is about to remove its id from `pending` and to return this error. -/
  | failing (e : TransportError)
  | done (r : Except TransportError Bytes)
  /-- The caller has dropped the future. -/
  | dropped
  deriving DecidableEq

structure Request where
  id : UInt32
  data : Bytes
  priority : MessagePriority
  stage : Stage
  rx : Oneshot
  deriving DecidableEq

/-- The sender is dropped without a value. -/
def Request.close (r : Request) : Request :=
  match r.rx with
  | .empty => { r with rx := .closed }
  | _ => r

def Request.answer (r : Request) (data : Bytes) : Request := { r with rx := .value data }

structure WsClient (snow : Snow) where
  loop : Loop snow
  nextId : UInt32
  /-- The command channel, oldest command first. -/
  queue : List ClientCmd
  /-- The request whose sender is stored under an id. -/
  pending : AList fun _ : UInt32 => ℕ
  eventHandler : Bool
  url : Option Text
  autoReconnect : Bool
  cancelled : Bool
  /-- The `try_send` calls that methods in progress still have to make. -/
  calls : List ClientCmd
  requests : List Request
  now : ℕ
  /-- The channel held a command when the loop came to its current wait. -/
  ready : Bool

inductive Event where
  | tick (d : ℕ)
  /-- A step of the connection loop. -/
  | loop (i : Input)
  | setEndpoint (url : Text)
  | clearEndpoint
  | setAutoReconnect (enabled : Bool)
  /-- The `k`-th method in progress makes its `try_send`. -/
  | notify (k : ℕ)
  | reconnect
  | wake
  | shutdown
  | onEvent
  | sendEvent (data : Bytes) (priority : MessagePriority)
  | request (data : Bytes) (priority : MessagePriority)
  | register (i : ℕ)
  | permit (i : ℕ)
  | enqueue (i : ℕ)
  /-- `cmd_tx.send` fails because the receiver is gone. -/
  | refuse (i : ℕ)
  | resolve (i : ℕ)
  | expire (i : ℕ)
  | remove (i : ℕ)
  | drop (i : ℕ)
  deriving DecidableEq

inductive Output where
  | loop (e : Effect)
  /-- The event handler was called with the data of this frame. -/
  | handled (f : Frame)
  /-- The `i`-th request has returned. -/
  | completed (i : ℕ) (r : Except TransportError Bytes)
  deriving DecidableEq

def Phase.isBackoff {snow : Snow} : Phase snow → Bool
  | .backoff _ _ => true
  | _ => false

namespace Loop

variable {snow : Snow}

/-- The command receiver still exists. -/
def alive (l : Loop snow) : Bool :=
  match l.phase with
  | .stopped | .panicked => false
  | _ => true

/-- When the timer of the current wait fires. -/
def deadline (l : Loop snow) : Option ℕ :=
  match l.phase with
  | .backoff _ d => some d
  | .authAwait _ _ _ d => some d
  | .online _ m => some m.heartbeatDeadline
  | _ => none

end Loop

namespace WsClient

variable {snow : Snow}

/-- `WsClient::new`, before the spawned loop first runs. -/
def new : WsClient snow where
  loop := .init
  nextId := 2
  queue := []
  pending := ∅
  eventHandler := false
  url := none
  autoReconnect := true
  cancelled := false
  calls := []
  requests := []
  now := 0
  ready := false

variable (pc : Postcard) (cfg : WsClientConfig) (parses : Text → Bool)

/-- Slots that are reserved for waiting senders. -/
def reserved (w : WsClient snow) : ℕ := w.requests.countP fun r => r.stage = .permitted

def hasRoom (w : WsClient snow) : Bool := w.queue.length + w.reserved < cfg.bufferSize

/-- `cmd_tx.try_send(c)`, whose failure is ignored. -/
def trySend (w : WsClient snow) (c : ClientCmd) : WsClient snow :=
  if w.loop.alive && w.hasRoom cfg then { w with queue := w.queue ++ [c] } else w

def modify (w : WsClient snow) (i : ℕ) (f : Request → Request) : WsClient snow :=
  { w with requests := w.requests.modify i f }

/-- `pending.remove(&id)`, which drops the sender. -/
def removePending (w : WsClient snow) (id : UInt32) : WsClient snow :=
  match w.pending.lookup id with
  | none => w
  | some j => { w.modify j Request.close with pending := w.pending.erase id }

/-- `pending.retain(|_, _| false)`. -/
def clearPending (w : WsClient snow) : WsClient snow :=
  { w with
    requests := w.requests.mapIdx fun i r =>
      if w.pending.entries.any fun e => e.2 = i then r.close else r
    pending := ∅ }

def handleEvent (w : WsClient snow) (f : Frame) : WsClient snow × List Output :=
  (w, if w.eventHandler then [.handled f] else [])

def dispatchFrame (w : WsClient snow) (f : Frame) : WsClient snow × List Output :=
  match f.kind with
  | .message =>
    if 0 < f.id then
      match w.pending.lookup f.id with
      | none => (w, [])
      | some i => ({ w.modify i (·.answer f.data) with pending := w.pending.erase f.id }, [])
    else w.handleEvent f
  | .event => w.handleEvent f
  | .pong => (w, [])
  | .ping => (w.trySend cfg (.send ⟨0, .pong, []⟩ .realTime), [])

/-- What an effect of the loop does to the shared state. -/
def react (w : WsClient snow) : Effect → WsClient snow × List Output
  | .dispatch f => w.dispatchFrame cfg f
  | .clearPending => (w.clearPending, [])
  | _ => (w, [])

def reactAll (w : WsClient snow) : List Effect → WsClient snow × List Output
  | [] => (w, [])
  | e :: es =>
    let r := w.react cfg e
    let s := reactAll r.1 es
    (s.1, .loop e :: (r.2 ++ s.2))

/-- The loop can get this input from the shared state. -/
def offers (w : WsClient snow) : Input → Bool
  | .cancelFlag b => w.cancelled == b
  | .url u => w.url == u
  | .autoReconnect b => w.autoReconnect == b
  | .cancelled => w.cancelled
  -- The `select!` of the backoff polls the channel when it begins, and its sleep has not ended
  -- then; a command that comes later races with the sleep.
  | .elapsed => w.loop.deadline.any (· ≤ w.now) && !(w.loop.phase.isBackoff && w.ready)
  | .cmd c => w.queue.head? == some c
  | .noCmd => w.queue.isEmpty
  | _ => true

/-- A command that is received leaves the channel. -/
def take (w : WsClient snow) : Input → WsClient snow
  | .cmd _ => { w with queue := w.queue.tail }
  | _ => w

/-- The loop goes on with this input to its next wait. -/
def resume (w : WsClient snow) (i : Input) (l : Loop snow) : WsClient snow :=
  { w.take i with loop := l, ready := !(w.take i).queue.isEmpty }

def stepLoop (w : WsClient snow) (i : Input) : Option (WsClient snow × List Output) :=
  if w.offers i then
    (w.loop.step pc cfg w.now i).map fun r =>
      let s := reactAll cfg (w.resume i r.1) r.2
      (s.1, .loop (.resumed i) :: s.2)
  else none

/-- `set_endpoint` up to its `try_send`; a URL that does not parse is refused. -/
def setEndpoint (w : WsClient snow) (url : Text) : WsClient snow :=
  if parses url then { w with url := some url, calls := w.calls ++ [.endpointChanged] } else w

def clearEndpoint (w : WsClient snow) : WsClient snow :=
  { w with url := none, calls := w.calls ++ [.endpointChanged] }

def setAutoReconnect (w : WsClient snow) (enabled : Bool) : WsClient snow :=
  { w with
    autoReconnect := enabled
    calls := if enabled then w.calls ++ [.reconnect] else w.calls }

/-- The first action of `request`: draw an id. -/
def draw (w : WsClient snow) (data : Bytes) (priority : MessagePriority) : WsClient snow :=
  { w with
    nextId := w.nextId + 1
    requests := w.requests ++ [⟨w.nextId, data, priority, .drawn, .empty⟩] }

/-- `pending.insert(id, tx)`, which drops a sender that was stored under the same id. -/
def register (w : WsClient snow) (i : ℕ) (r : Request) : WsClient snow :=
  let w' := w.removePending r.id
  { w'.modify i ({ · with stage := .registered }) with pending := w'.pending.insert r.id i }

def setStage (w : WsClient snow) (i : ℕ) (s : Stage) : WsClient snow :=
  w.modify i ({ · with stage := s })

def finish (w : WsClient snow) (i : ℕ) (r : Except TransportError Bytes) :
    WsClient snow × List Output :=
  (w.setStage i (.done r), [.completed i r])

/-- An event of the `i`-th call of `request`, which is now `r`. -/
def stepRequest (w : WsClient snow) (i : ℕ) (r : Request) :
    Event → Option (WsClient snow × List Output)
  | .register _ => if r.stage = .drawn then some (w.register i r, []) else none
  | .permit _ =>
    if r.stage = .registered ∧ w.loop.alive ∧ w.hasRoom cfg then some (w.setStage i .permitted, [])
    else none
  | .enqueue _ =>
    if r.stage = .permitted ∧ w.loop.alive then
      some ({ w.setStage i (.waiting (w.now + cfg.requestTimeout.nanos)) with
        queue := w.queue ++ [.send ⟨r.id, .message, r.data⟩ r.priority] }, [])
    else none
  | .refuse _ =>
    if (r.stage = .registered ∨ r.stage = .permitted) ∧ ¬ w.loop.alive then
      some (w.finish i (.error .channelError))
    else none
  | .resolve _ =>
    match r.stage, r.rx with
    | .waiting _, .value data => some (w.finish i (.ok data))
    | .waiting _, .closed => some (w.setStage i (.failing .channelError), [])
    | _, _ => none
  | .expire _ =>
    match r.stage with
    | .waiting deadline =>
      if deadline ≤ w.now then some (w.setStage i (.failing .requestTimeout), []) else none
    | _ => none
  | .remove _ =>
    match r.stage with
    | .failing e => some ((w.removePending r.id).finish i (.error e))
    | _ => none
  | .drop _ =>
    match r.stage with
    | .registered | .permitted | .waiting _ => some (w.setStage i .dropped, [])
    | _ => none
  | _ => none

def step (w : WsClient snow) (e : Event) : Option (WsClient snow × List Output) :=
  match e with
  | .tick d => some ({ w with now := w.now + d }, [])
  | .loop i => w.stepLoop pc cfg i
  | .setEndpoint url => some (w.setEndpoint parses url, [])
  | .clearEndpoint => some (w.clearEndpoint, [])
  | .setAutoReconnect enabled => some (w.setAutoReconnect enabled, [])
  | .notify k =>
    match w.calls[k]? with
    | some c => some (trySend cfg { w with calls := w.calls.eraseIdx k } c, [])
    | none => none
  | .reconnect => some (w.trySend cfg .reconnect, [])
  | .wake => some (w.trySend cfg .wakeUp, [])
  | .shutdown => some ({ w with cancelled := true }, [])
  | .onEvent => some ({ w with eventHandler := true }, [])
  | .sendEvent data priority => some (w.trySend cfg (.send ⟨0, .event, data⟩ priority), [])
  | .request data priority => some (w.draw data priority, [])
  | .register i | .permit i | .enqueue i | .refuse i | .resolve i | .expire i | .remove i
  | .drop i =>
    match w.requests[i]? with
    | some r => w.stepRequest cfg i r e
    | none => none

def machine (snow : Snow) : Mealy (WsClient snow) Event Output := ⟨step pc cfg parses⟩

end WsClient

end NotifiTransport

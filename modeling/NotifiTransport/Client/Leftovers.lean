import NotifiTransport.Client.Attempts

/-! # What the waits leave in the channel

A wait outside the message loop drops the requests that it takes. The backoff is one of them, and a
command that is in the channel when it begins is taken before its sleep can end. So, from where the
loop is, it is known which commands no connection will take any more, whatever the callers and the
server do: all but an end of the channel.
-/

namespace NotifiTransport

namespace Loop

variable {snow : Snow} {pc : Postcard} {cfg : WsClientConfig} {now : ℕ} {l : Loop snow}
  {r : Loop snow × List Effect} {n : UInt32} {ready ready' : Bool} {p x : ClientCmd → Bool}
  {c : ClientCmd} {q s : List ClientCmd}

/-- The commands after the first that ends a wait. -/
def afterFirst (wakes : ClientCmd → Bool) (q : List ClientCmd) : List ClientCmd :=
  (q.dropWhile (!wakes ·)).tail

/-- One backoff after another takes the commands up to the first that resets the counter, and it
goes on if there is a delay for attempt 0 also. -/
def keptByBackoff (cfg : WsClientConfig) (q : List ClientCmd) : List ClientCmd :=
  match cfg.backoff.nextDelay 0 with
  | none => []
  | some delay => if 0 < delay.nanos then [] else q.dropWhile (!isControl ·)

/-- From the top of the loop, with this counter. -/
def keptFromTop (cfg : WsClientConfig) (n : UInt32) (q : List ClientCmd) : List ClientCmd :=
  match cfg.backoff.nextDelay n with
  | none => []
  | some delay => if 0 < delay.nanos then keptByBackoff cfg q else q

/-- From the end of a connection: auto-reconnect is on, or the wait for the user comes first. -/
def keptOffline (cfg : WsClientConfig) (n : UInt32) (q : List ClientCmd) : List ClientCmd :=
  let auto := keptFromTop cfg 1 q
  let manual := keptFromTop cfg n (afterFirst isControl q)
  if auto.length ≤ manual.length then manual else auto

/-- What the loop may leave of the channel to a connection. A command that has come in since the
backoff began races with its sleep. -/
def kept (cfg : WsClientConfig) (ready : Bool) (l : Loop snow) (q : List ClientCmd) :
    List ClientCmd :=
  match l.phase with
  | .top | .readUrl => keptFromTop cfg l.reconnectAttempt q
  | .parked => keptFromTop cfg l.reconnectAttempt (afterFirst isEndpointChanged q)
  | .backoff _ _ => if ready then keptByBackoff cfg q else q
  | .versionRejected _ => keptFromTop cfg (l.reconnectAttempt + 1) (afterFirst isControl q)
  | .terminal _ => keptFromTop cfg 0 (afterFirst isWake q)
  | .online _ m => if m.phase = .closing then keptOffline cfg l.reconnectAttempt q else q
  | .offline | .checkAuto => keptOffline cfg l.reconnectAttempt q
  | .manual => keptFromTop cfg l.reconnectAttempt (afterFirst isControl q)
  | .stopped | .panicked => []
  | _ => q

section Append

variable (q s)

end Append

end Loop

end NotifiTransport

import NotifiTransport.Http.SseRoundTrip
import NotifiTransport.Lib.Mealy

/-! # The subscription of an `HttpClient`

`on_event` spawns a task for the stream of the endpoint that is set then, with that URL and that
handler. No call takes a task back, so each event reaches the last handler alone exactly if one
`on_event` finds an endpoint and the stream of the endpoint stays the same afterwards.
-/

namespace NotifiTransport

/-- `Url::parse` and `Url::join`. -/
structure UrlCrate (Url : Type) where
  parse : Text → Option Url
  join : Url → Text → Option Url

variable {Url H : Type}

/-- What `sse_loop` waits for: the answer to its GET, the next chunk, or the end of its pause. -/
inductive SsePhase where
  | connecting
  | reading (p : SseParser)
  | pausing
  deriving DecidableEq

/-- A task that runs `sse_loop`, with what `on_event` has captured. -/
structure SseTask (Url H : Type) where
  url : Url
  handler : H
  phase : SsePhase
  deriving DecidableEq

inductive SseInput where
  | response (isSuccess : Except Text Bool)
  | chunk (c : Option (Except Text Bytes))
  | slept

namespace SseTask

/-- `handler_wrapper`, which drops the event type. -/
def handle (t : SseTask Url H) (calls : List SseCall) : List (H × Bytes) :=
  calls.map fun call => (t.handler, Utf8.encode call.2)

/-- `sse_loop` between two await points, with the calls of the handler. -/
def step (t : SseTask Url H) (x : SseInput) : Option (SseTask Url H × List (H × Bytes)) :=
  match t.phase, x with
  | .connecting, .response (.ok true) => some ({ t with phase := .reading .new }, [])
  | .connecting, .response _ => some ({ t with phase := .pausing }, [])
  | .reading p, .chunk (some (.ok bytes)) =>
    let r := p.feed bytes
    some ({ t with phase := .reading r.1 }, t.handle r.2)
  -- the body has ended, or its next chunk is an error
  | .reading _, .chunk _ => some ({ t with phase := .pausing }, [])
  | .pausing, .slept => some ({ t with phase := .connecting }, [])
  | _, _ => none

def machine : Mealy (SseTask Url H) SseInput (H × Bytes) := ⟨step⟩

variable [DecidableEq Url]

/-- The task has an open connection to this stream. -/
def readsFrom (u : Url) (t : SseTask Url H) : Bool :=
  t.url = u && match t.phase with
    | .reading _ => true
    | _ => false

/-- Bytes on the stream `u` reach the task over an open connection. -/
def receive (u : Url) (bytes : Bytes) (t : SseTask Url H) : SseTask Url H × List (H × Bytes) :=
  if t.url = u then (t.step (.chunk (some (.ok bytes)))).getD (t, []) else (t, [])

end SseTask

/-- The calls of `Transport` that concern the subscription. -/
inductive HttpCall (H : Type) where
  | onEvent (handler : H)
  | setEndpoint (url : Text)
  | clearEndpoint

/-- The endpoint and the spawned tasks. None of these calls cancels a task. -/
structure HttpClient (Url H : Type) where
  baseUrl : Option Url
  tasks : List (SseTask Url H)
  deriving DecidableEq

namespace HttpClient

variable (urls : UrlCrate Url)

/-- `HttpClient::new`; `build` is the result of building the `reqwest` client. -/
def new (baseUrl : Text) (build : Except TransportError Unit) :
    Except TransportError (HttpClient Url H) :=
  if baseUrl = [] then build.map fun _ => ⟨none, []⟩
  else
    match urls.parse baseUrl with
    | none => .error (.invalidUrl baseUrl)
    | some url => build.map fun _ => ⟨some url, []⟩

def resolve (c : HttpClient Url H) (path : Text) : Except TransportError Url :=
  match c.baseUrl with
  | none => .error (.invalidUrl "No endpoint set".toList)
  | some base =>
    match urls.join base path with
    | none => .error (.invalidUrl path)
    | some url => .ok url

def onEvent (c : HttpClient Url H) (handler : H) : HttpClient Url H :=
  match c.resolve urls "/events".toList with
  | .ok url => { c with tasks := c.tasks ++ [⟨url, handler, .connecting⟩] }
  | .error _ => c

def setEndpoint (c : HttpClient Url H) (url : Text) :
    HttpClient Url H × Except TransportError Unit :=
  match urls.parse url with
  | none => (c, .error (.invalidUrl url))
  | some base => ({ c with baseUrl := some base }, .ok ())

def clearEndpoint (c : HttpClient Url H) : HttpClient Url H := { c with baseUrl := none }

def call (c : HttpClient Url H) : HttpCall H → HttpClient Url H
  | .onEvent handler => c.onEvent urls handler
  | .setEndpoint url => (c.setEndpoint urls url).1
  | .clearEndpoint => c.clearEndpoint

/-- The client after some calls, with tasks that have not run yet. -/
def called (base : Option Url) (calls : List (HttpCall H)) : HttpClient Url H :=
  calls.foldl (call urls) ⟨base, []⟩

end HttpClient

/-- What happens: a call, a task that gets its answer, loses its connection or wakes up, and an item
that the server writes to the open connections of a stream. -/
inductive HttpAct (Url H : Type) where
  | call (x : HttpCall H)
  | answered (i : ℕ) (isSuccess : Except Text Bool)
  | ended (i : ℕ) (e : Option Text)
  | slept (i : ℕ)
  | pushed (u : Url) (item : SseItem)

namespace HttpClient

variable [DecidableEq Url] (urls : UrlCrate Url)

def stepTask (c : HttpClient Url H) (i : ℕ) (x : SseInput) :
    Option (HttpClient Url H × List (H × Bytes)) :=
  match c.tasks[i]? with
  | none => none
  | some t => (t.step x).map fun r => ({ c with tasks := c.tasks.set i r.1 }, r.2)

/-- The server writes an item to all connections of the stream that are open. -/
def push (c : HttpClient Url H) (u : Url) (item : SseItem) : HttpClient Url H × List (H × Bytes) :=
  let rs := c.tasks.map (SseTask.receive u (Utf8.encode (SseItem.stream [item])))
  ({ c with tasks := rs.map Prod.fst }, rs.flatMap Prod.snd)

def step (c : HttpClient Url H) : HttpAct Url H → Option (HttpClient Url H × List (H × Bytes))
  | .call x => some (c.call urls x, [])
  | .answered i r => c.stepTask i (.response r)
  | .ended i e => c.stepTask i (.chunk (e.map .error))
  | .slept i => c.stepTask i .slept
  | .pushed u item => some (c.push u item)

def machine : Mealy (HttpClient Url H) (HttpAct Url H) (H × Bytes) := ⟨step urls⟩

/-- Some task has an open connection to the stream. -/
def connected (c : HttpClient Url H) (u : Url) : Bool := c.tasks.any (SseTask.readsFrom u)

end HttpClient

def HttpAct.call? : HttpAct Url H → Option (HttpCall H)
  | .call x => some x
  | _ => none

def callsOf (acts : List (HttpAct Url H)) : List (HttpCall H) :=
  acts.filterMap HttpAct.call?

/-- What `connect_sse` makes of the data of an event. -/
def SseEvent.received (e : SseEvent) : Text := joinLines ((e.data.splitOn '\n').map trim)

/-- One endpoint and one handler, both looked up when an event comes, as in `WsClient`. -/
structure EventSlot (Url H : Type) where
  base : Option Url
  handler : Option H

namespace EventSlot

variable [DecidableEq Url] (urls : UrlCrate Url)

def call (s : EventSlot Url H) : HttpCall H → EventSlot Url H
  | .onEvent handler => { s with handler := some handler }
  | .setEndpoint url => { s with base := (urls.parse url).or s.base }
  | .clearEndpoint => { s with base := none }

def called (base : Option Url) (calls : List (HttpCall H)) : EventSlot Url H :=
  calls.foldl (call urls) ⟨base, none⟩

/-- The stream of the endpoint. -/
def stream (s : EventSlot Url H) : Option Url := s.base.bind fun b => urls.join b "/events".toList

/-- The calls that an event on the stream `u` should make. -/
def deliver (s : EventSlot Url H) (isConnected : Bool) (u : Url) (e : SseEvent) :
    List (H × Bytes) :=
  if s.stream urls = some u ∧ isConnected = true then
    s.handler.toList.map fun h => (h, Utf8.encode e.received)
  else []

theorem length_deliver_le (s : EventSlot Url H) (isConnected : Bool) (u : Url) (e : SseEvent) :
    (s.deliver urls isConnected u e).length ≤ 1 := by
  unfold deliver
  split
  · rw [List.length_map]
    cases s.handler <;> simp
  · exact Nat.zero_le _

end EventSlot

section Conditions

variable [DecidableEq Url] (urls : UrlCrate Url)

/-- Whatever happens between these calls, an event makes the calls that it should. -/
def AlwaysDelivers (base : Option Url) (calls : List (HttpCall H)) : Prop :=
  ∀ acts c tr, (HttpClient.machine urls).run ⟨base, []⟩ acts = some (c, tr) →
    callsOf acts <+: calls → ∀ u e, (c.push u (.event e)).2 =
      (EventSlot.called urls base (callsOf acts)).deliver urls (c.connected u) u e

/-- The call neither registers a handler nor leaves the stream `u`. -/
def HttpCall.Keeps (u : Url) : HttpCall H → Prop
  | .onEvent _ => False
  | .setEndpoint url => ∀ base, urls.parse url = some base →
      urls.join base "/events".toList = some u
  | .clearEndpoint => False

/-- After an `on_event` that finds the stream of an endpoint, every call keeps that stream. -/
def OneSubscription (base : Option Url) (calls : List (HttpCall H)) : Prop :=
  ∀ pre handler post u, calls = pre ++ HttpCall.onEvent handler :: post →
    (HttpClient.called urls base pre).resolve urls "/events".toList = .ok u →
      ∀ x ∈ post, x.Keeps urls u

end Conditions

variable {urls : UrlCrate Url} {base : Option Url} {u : Url} {h : H} {t t' : SseTask Url H}
  {c c' d : HttpClient Url H} {x : SseInput} {o tr : List (H × Bytes)} {i : ℕ} {e : SseEvent}
  {item : SseItem} {calls calls' : List (HttpCall H)} {acts : List (HttpAct Url H)}

/-- An item that arrives as a whole leaves nothing in the parser. -/
theorem SseParser.feed_item (item : SseItem) :
    SseParser.new.feed (Utf8.encode (SseItem.stream [item])) =
      (.new, item.events.map fun e => (trim e.eventType, e.received)) := by
  have hcut : Lines.cut '\n' (SseItem.stream [item]) = (item.lines, []) := by
    rw [SseItem.stream, List.flatMap_singleton, Lines.cut_unlines item.newline_notMem_lines]
  have hlines : SseFields.new.onLines item.lines =
      (.new, item.events.map fun e => (trim e.eventType, e.received)) := by
    cases item with
    | event e =>
      have hdata : ∀ l ∈ e.data.splitOn '\n', '\r' ∉ l := fun l hl hr =>
        e.data_return_notMem (Lines.mem_of_mem_splitOn hl hr)
      exact SseFields.onLines_event rfl e.return_notMem hdata (List.splitOn_ne_nil _ _)
    | keepAlive blanks => exact SseFields.onLines_keepAlive rfl blanks
  rw [feed, Utf8.lossy_encode]
  dsimp only [new]
  rw [List.nil_append, drain_eq le_rfl, hcut]
  dsimp only
  rw [hlines]

namespace SseTask

/-- Nothing of an unfinished event is left in the parser. -/
def Fresh (t : SseTask Url H) : Prop := ∀ p, t.phase = .reading p → p = .new

/-- What a task has captured. -/
def captured (t : SseTask Url H) : Url × H := (t.url, t.handler)

theorem captured_step (hs : t.step x = some (t', o)) : t'.captured = t.captured := by
  unfold step at hs
  split at hs <;> cases hs <;> rfl

/-- Without bytes there are no calls, and a new connection begins with a new parser. -/
theorem step_fresh (hs : t.step x = some (t', o)) (hx : ∀ bytes, x ≠ .chunk (some (.ok bytes))) :
    o = [] ∧ t'.Fresh := by
  unfold step at hs
  split at hs <;> cases hs
  · exact ⟨rfl, fun p hp => (SsePhase.reading.inj hp).symm⟩
  · exact ⟨rfl, fun p hp => by cases hp⟩
  · exact absurd rfl (hx _)
  · exact ⟨rfl, fun p hp => by cases hp⟩
  · exact ⟨rfl, fun p hp => by cases hp⟩

/-- A task that reads a body to its end makes the calls of the parser. -/
theorem run_reading (t : SseTask Url H) (p : SseParser) (chunks : List Bytes) :
    (machine : Mealy (SseTask Url H) SseInput (H × Bytes)).run { t with phase := .reading p }
        (chunks.map (fun bytes => .chunk (some (.ok bytes))) ++ [SseInput.chunk none]) =
      some ({ t with phase := .pausing }, t.handle (p.read (chunks.map .ok)).1) := by
  induction chunks generalizing p with
  | nil => rfl
  | cons bytes chunks ih =>
    rw [List.map_cons, List.cons_append]
    apply Mealy.run_cons.mpr
    refine ⟨{ t with phase := .reading (p.feed bytes).1 }, _, _, rfl, ih _, ?_⟩
    rw [List.map_cons, SseParser.read]
    exact List.map_append

/-- Between two pauses a task makes the calls of `connect_sse`. -/
theorem run_connected (ht : t.phase = .connecting) (status : Text) (chunks : List Bytes) :
    (machine : Mealy (SseTask Url H) SseInput (H × Bytes)).run t
        (.response (.ok true) :: (chunks.map (fun bytes => .chunk (some (.ok bytes))) ++
          [SseInput.chunk none])) =
      some ({ t with phase := .pausing },
        t.handle (connectSse (.ok ⟨status, true, chunks.map .ok⟩)).1) := by
  obtain ⟨u, h, phase⟩ := t
  obtain rfl : phase = .connecting := ht
  apply Mealy.run_cons.mpr
  exact ⟨_, _, _, rfl, run_reading ⟨u, h, .connecting⟩ .new chunks, rfl⟩

theorem receive_item [DecidableEq Url] (ht : t.Fresh) (u : Url) (item : SseItem) :
    t.receive u (Utf8.encode (SseItem.stream [item])) =
      (t, if t.readsFrom u then item.events.map fun e => (t.handler, Utf8.encode e.received)
        else []) := by
  obtain ⟨v, h, phase⟩ := t
  by_cases hu : v = u
  · cases phase with
    | connecting => simp [receive, readsFrom, step]
    | pausing => simp [receive, readsFrom, step]
    | reading p =>
      obtain rfl := ht p rfl
      simp [receive, readsFrom, step, hu, SseParser.feed_item, handle, Function.comp_def]
  · simp [receive, readsFrom, hu]

end SseTask

namespace HttpClient

/-- A new client has no tasks. -/
theorem new_tasks {baseUrl : Text} {build : Except TransportError Unit}
    (hnew : new urls baseUrl build = .ok c) : ∃ base, c = ⟨base, []⟩ := by
  have hmap : ∀ base, build.map (fun _ => (⟨base, []⟩ : HttpClient Url H)) = .ok c →
      ∃ base, c = ⟨base, []⟩ := by
    intro base hbuild
    cases build with
    | error e => cases hbuild
    | ok =>
      cases hbuild
      exact ⟨base, rfl⟩
  unfold new at hnew
  split at hnew
  · exact hmap none hnew
  · split at hnew
    · cases hnew
    · next url _ => exact hmap (some url) hnew

theorem resolve_ok_iff {path : Text} :
    c.resolve urls path = .ok u ↔ (c.baseUrl.bind fun b => urls.join b path) = some u := by
  unfold resolve
  split
  · next hb => simp [hb]
  · next b hb => 
    rw [hb, Option.bind_some]
    split <;> simp_all

theorem called_concat (calls : List (HttpCall H)) (x : HttpCall H) :
    called urls base (calls ++ [x]) = (called urls base calls).call urls x := by
  rw [called, List.foldl_append]
  rfl

/-- A call spawns a task or none. -/
theorem call_tasks (urls : UrlCrate Url) (c : HttpClient Url H) (x : HttpCall H) :
    (c.call urls x).tasks = c.tasks ∨ ∃ h u, x = .onEvent h ∧
      c.resolve urls "/events".toList = .ok u ∧
      (c.call urls x).tasks = c.tasks ++ [⟨u, h, .connecting⟩] := by
  cases x with
  | onEvent h =>
    rw [call, onEvent]
    split
    · next u hu => exact Or.inr ⟨h, u, rfl, hu, rfl⟩
    · exact Or.inl rfl
  | setEndpoint url =>
    rw [call, setEndpoint]
    cases urls.parse url <;> exact Or.inl rfl
  | clearEndpoint => exact Or.inl rfl

/-- Every task comes from an `on_event` that found its stream. -/
theorem exists_onEvent (ht : t ∈ (called urls base calls).tasks) :
    ∃ pre post, calls = pre ++ HttpCall.onEvent t.handler :: post ∧
      (called urls base pre).resolve urls "/events".toList = .ok t.url := by
  induction calls using List.reverseRecOn with
  | nil => cases ht
  | append_singleton calls x ih =>
    have hold : t ∈ (called urls base calls).tasks → ∃ pre post,
        calls ++ [x] = pre ++ HttpCall.onEvent t.handler :: post ∧
          (called urls base pre).resolve urls "/events".toList = .ok t.url := by
      intro ht
      obtain ⟨pre, post, rfl, hu⟩ := ih ht
      exact ⟨pre, post ++ [x], by simp, hu⟩
    rw [called_concat] at ht
    rcases call_tasks urls (called urls base calls) x with heq | ⟨h, u, rfl, hu, heq⟩
    · rw [heq] at ht
      exact hold ht
    · rw [heq, List.mem_append, List.mem_singleton] at ht
      rcases ht with ht | rfl
      · exact hold ht
      · exact ⟨calls, [], rfl, hu⟩

end HttpClient

theorem EventSlot.called_concat (calls : List (HttpCall H)) (x : HttpCall H) :
    called urls base (calls ++ [x]) = (called urls base calls).call urls x := by
  rw [called, List.foldl_append]
  rfl

/-- The client and the slot have the same endpoint. -/
theorem HttpClient.baseUrl_called (calls : List (HttpCall H)) :
    (called urls base calls).baseUrl = (EventSlot.called urls base calls).base := by
  induction calls using List.reverseRecOn with
  | nil => rfl
  | append_singleton calls x ih =>
    rw [called_concat, EventSlot.called_concat]
    cases x with
    | onEvent h =>
      rw [call, onEvent]
      split <;> exact ih
    | setEndpoint url =>
      rw [call, setEndpoint, EventSlot.call]
      cases urls.parse url with
      | none => exact ih
      | some b => rfl
    | clearEndpoint => rfl

theorem resolve_called_iff : (HttpClient.called urls base calls).resolve urls "/events".toList =
    .ok u ↔ (EventSlot.called urls base calls).stream urls = some u := by
  rw [HttpClient.resolve_ok_iff, HttpClient.baseUrl_called, EventSlot.stream]

/-- `c` has the endpoint and the subscriptions of `d`, with connections that are between events. -/
structure Tracks (c d : HttpClient Url H) : Prop where
  baseUrl : c.baseUrl = d.baseUrl
  tasks : c.tasks.map SseTask.captured = d.tasks.map SseTask.captured
  fresh : ∀ t ∈ c.tasks, t.Fresh

theorem Tracks.call (hcd : Tracks c d) (x : HttpCall H) :
    Tracks (c.call urls x) (d.call urls x) := by
  obtain ⟨hbase, htasks, hfresh⟩ := hcd
  cases x with
  | onEvent h =>
    have hresolve : c.resolve urls "/events".toList = d.resolve urls "/events".toList := by
      rw [HttpClient.resolve, HttpClient.resolve, hbase]
    rw [HttpClient.call, HttpClient.call, HttpClient.onEvent, HttpClient.onEvent, hresolve]
    split
    · constructor
      · exact hbase
      · rw [List.map_append, List.map_append, htasks]
      · rw [List.forall_mem_append, List.forall_mem_singleton]
        exact ⟨hfresh, fun p hp => by cases hp⟩
    · exact ⟨hbase, htasks, hfresh⟩
  | setEndpoint url =>
    rw [HttpClient.call, HttpClient.call, HttpClient.setEndpoint, HttpClient.setEndpoint]
    cases urls.parse url with
    | none => exact ⟨hbase, htasks, hfresh⟩
    | some b => exact ⟨rfl, htasks, hfresh⟩
  | clearEndpoint => exact ⟨rfl, htasks, hfresh⟩

theorem Tracks.stepTask (hcd : Tracks c d) (hs : c.stepTask i x = some (c', o))
    (hx : ∀ bytes, x ≠ .chunk (some (.ok bytes))) : Tracks c' d := by
  unfold HttpClient.stepTask at hs
  split at hs
  · cases hs
  · next t ht =>
    obtain ⟨⟨t', o'⟩, hstep, hsome⟩ := Option.map_eq_some_iff.mp hs
    cases hsome
    obtain ⟨hi, rfl⟩ := List.getElem?_eq_some_iff.mp ht
    constructor
    · exact hcd.baseUrl
    · rw [List.map_set, SseTask.captured_step hstep, ← List.map_set, List.set_getElem_self]
      exact hcd.tasks
    · intro t ht
      rcases List.mem_or_eq_of_mem_set ht with ht | rfl
      · exact hcd.fresh t ht
      · exact (SseTask.step_fresh hstep hx).2

theorem callsOf_append (acts acts' : List (HttpAct Url H)) :
    callsOf (acts ++ acts') = callsOf acts ++ callsOf acts' :=
  List.filterMap_append

/-- There is no subscription, or a single one, to the stream of the endpoint and for the last
handler. -/
theorem OneSubscription.tasks (hone : OneSubscription urls base calls) (hp : calls' <+: calls) :
    (HttpClient.called urls base calls').tasks = [] ∨ ∃ u h,
      (HttpClient.called urls base calls').tasks = [⟨u, h, .connecting⟩] ∧
      (EventSlot.called urls base calls').stream urls = some u ∧
      (EventSlot.called urls base calls').handler = some h := by
  induction calls' using List.reverseRecOn with
  | nil => exact Or.inl rfl
  | append_singleton calls' x ih =>
    obtain ⟨rest, rfl⟩ := hp
    rw [HttpClient.called_concat, EventSlot.called_concat]
    rcases ih ⟨[x] ++ rest, by simp⟩ with hnil | ⟨u, h, htasks, hstream, hhandler⟩
    · rcases HttpClient.call_tasks urls (HttpClient.called urls base calls') x with
        heq | ⟨h, u, rfl, hu, heq⟩
      · exact Or.inl (heq.trans hnil)
      · rw [hnil] at heq
        exact Or.inr ⟨u, h, heq, resolve_called_iff.mp hu, rfl⟩
    · -- the task comes from an earlier call, so this one keeps the stream
      have ht : ⟨u, h, .connecting⟩ ∈ (HttpClient.called urls base calls').tasks := by
        rw [htasks]
        exact List.mem_singleton_self _
      obtain ⟨pre, post, rfl, hu⟩ := HttpClient.exists_onEvent ht
      have hkeeps : x.Keeps urls u := hone pre h (post ++ x :: rest) u (by simp) hu x (by simp)
      apply Or.inr
      cases x with
      | onEvent h' => exact hkeeps.elim
      | clearEndpoint => exact hkeeps.elim
      | setEndpoint url =>
        refine ⟨u, h, ?_, ?_, hhandler⟩
        · rw [HttpClient.call, HttpClient.setEndpoint]
          cases urls.parse url <;> exact htasks
        · rw [EventSlot.call, EventSlot.stream]
          cases hparse : urls.parse url with
          | none => exact hstream
          | some b => exact hkeeps b hparse

section Runs

variable [DecidableEq Url]

namespace HttpClient

theorem push_item (hc : ∀ t ∈ c.tasks, t.Fresh) (u : Url) (item : SseItem) :
    c.push u item = (c, c.tasks.flatMap fun t => if t.readsFrom u then
      item.events.map fun e => (t.handler, Utf8.encode e.received) else []) := by
  have hmap : c.tasks.map (SseTask.receive u (Utf8.encode (SseItem.stream [item]))) =
      c.tasks.map fun t => (t, if t.readsFrom u then
        item.events.map fun e => (t.handler, Utf8.encode e.received) else []) := by
    apply List.map_congr_left
    intro t ht
    exact SseTask.receive_item (hc t ht) u item
  rw [push, hmap]
  simp [Function.comp_def, List.flatMap_map]

/-- An event makes one call for each open connection. -/
theorem push_event (hc : ∀ t ∈ c.tasks, t.Fresh) (u : Url) (e : SseEvent) :
    (c.push u (.event e)).2 =
      (c.tasks.filter (SseTask.readsFrom u)).map fun t => (t.handler, Utf8.encode e.received) := by
  rw [push_item hc]
  dsimp only
  induction c.tasks with
  | nil => rfl
  | cons t ts ih =>
    rw [List.flatMap_cons, ih, List.filter_cons]
    split <;> rfl

end HttpClient

/-- A step changes endpoint and subscriptions only as its call does. -/
theorem Tracks.step {a : HttpAct Url H} (hcd : Tracks c d) (hs : c.step urls a = some (c', o)) :
    Tracks c' ((callsOf [a]).foldl (HttpClient.call urls) d) := by
  cases a with
  | call x =>
    cases hs
    exact hcd.call x
  | answered i r => exact hcd.stepTask hs fun bytes h => by cases h
  | ended i e => exact hcd.stepTask hs fun bytes h => by cases e <;> cases h
  | slept i => exact hcd.stepTask hs fun bytes h => by cases h
  | pushed u item =>
    rw [HttpClient.step, HttpClient.push_item hcd.fresh] at hs
    cases hs
    exact hcd

/-- The tasks of a run are those of its calls. -/
theorem run_tracks (hr : (HttpClient.machine urls).run ⟨base, []⟩ acts = some (c, tr)) :
    Tracks c (HttpClient.called urls base (callsOf acts)) := by
  refine Mealy.run_induction
    (P := fun acts _ c => Tracks c (HttpClient.called urls base (callsOf acts)))
    ⟨rfl, rfl, List.forall_mem_nil _⟩ ?_ hr
  intro acts tr c a c' o _ hcd hs
  rw [callsOf_append, HttpClient.called, List.foldl_append]
  exact hcd.step hs

/-- Handlers are called by tasks that have captured them. -/
theorem handler_of_step {a : HttpAct Url H} (hc : ∀ t ∈ c.tasks, t.Fresh)
    (hs : c.step urls a = some (c', o)) : ∀ x ∈ o, ∃ t ∈ c.tasks, t.handler = x.1 := by
  have htask : ∀ {i x}, c.stepTask i x = some (c', o) → (∀ bytes, x ≠ .chunk (some (.ok bytes))) →
      ∀ x ∈ o, ∃ t ∈ c.tasks, t.handler = x.1 := by
    intro i x hs hx
    unfold HttpClient.stepTask at hs
    split at hs
    · cases hs
    · obtain ⟨⟨t', o'⟩, hstep, hsome⟩ := Option.map_eq_some_iff.mp hs
      cases hsome
      rw [(SseTask.step_fresh hstep hx).1]
      exact List.forall_mem_nil _
  cases a with
  | call x =>
    cases hs
    exact List.forall_mem_nil _
  | answered i r => exact htask hs fun bytes h => by cases h
  | ended i e => exact htask hs fun bytes h => by cases e <;> cases h
  | slept i => exact htask hs fun bytes h => by cases h
  | pushed u item =>
    rw [HttpClient.step, HttpClient.push_item hc] at hs
    cases hs
    intro x hx
    obtain ⟨t, ht, hx⟩ := List.mem_flatMap.mp hx
    split at hx
    · obtain ⟨e, -, rfl⟩ := List.mem_map.mp hx
      exact ⟨t, ht, rfl⟩
    · cases hx

/-- A handler that every `on_event` gave while no stream could be found is never called: nothing
keeps it for an endpoint that is set later. -/
theorem run_unsubscribed (hr : (HttpClient.machine urls).run ⟨base, []⟩ acts = some (c, tr))
    (hn : ∀ pre post u, callsOf acts = pre ++ HttpCall.onEvent h :: post →
      (HttpClient.called urls base pre).resolve urls "/events".toList ≠ .ok u) :
    ∀ x ∈ tr, x.1 ≠ h := by
  refine Mealy.run_induction (P := fun acts tr _ => (∀ pre post u,
    callsOf acts = pre ++ HttpCall.onEvent h :: post →
      (HttpClient.called urls base pre).resolve urls "/events".toList ≠ .ok u) →
        ∀ x ∈ tr, x.1 ≠ h) (fun _ => List.forall_mem_nil _) ?_ hr hn
  intro acts tr c a c' o hr ih hs hn
  have hold : ∀ pre post u, callsOf acts = pre ++ HttpCall.onEvent h :: post →
      (HttpClient.called urls base pre).resolve urls "/events".toList ≠ .ok u := by
    intro pre post u hcalls
    refine hn pre (post ++ callsOf [a]) u ?_
    rw [callsOf_append, hcalls]
    simp
  obtain ⟨-, htasks, hfresh⟩ := run_tracks hr
  refine List.forall_mem_append.mpr ⟨ih hold, ?_⟩
  rintro x hx rfl
  obtain ⟨t, ht, hhandler⟩ := handler_of_step hfresh hs x hx
  have hmem := List.mem_map_of_mem (f := SseTask.captured) ht
  rw [htasks] at hmem
  obtain ⟨t', ht', heq⟩ := List.mem_map.mp hmem
  obtain ⟨pre, post, hcalls, hu⟩ := HttpClient.exists_onEvent ht'
  rw [(Prod.mk.inj heq).2, hhandler] at hcalls
  exact hold pre post _ hcalls hu

/-- The connections can all be opened before the next call. -/
theorem exists_run_reading (urls : UrlCrate Url) (base : Option Url) (calls : List (HttpCall H)) :
    ∃ acts c tr, (HttpClient.machine urls).run ⟨base, []⟩ acts = some (c, tr) ∧
      callsOf acts = calls ∧ ∀ t ∈ c.tasks, t.phase = .reading .new := by
  induction calls using List.reverseRecOn with
  | nil => exact ⟨[], _, [], rfl, rfl, by simp⟩
  | append_singleton calls x ih =>
    obtain ⟨acts, c, tr, hr, rfl, hc⟩ := ih
    have hcall : (HttpClient.machine urls).run ⟨base, []⟩ (acts ++ [HttpAct.call x]) =
        some (c.call urls x, tr ++ []) := Mealy.run_concat.mpr ⟨c, tr, [], hr, rfl, rfl⟩
    rcases HttpClient.call_tasks urls c x with heq | ⟨h, u, -, -, heq⟩
    · exact ⟨_, _, _, hcall, callsOf_append _ _, by rwa [heq]⟩
    · have hget : (c.call urls x).tasks[c.tasks.length]? = some ⟨u, h, .connecting⟩ := by
        rw [heq]
        simp
      have hstep : (HttpClient.machine urls).step (c.call urls x)
          (.answered c.tasks.length (.ok true)) =
          some ({ c.call urls x with
            tasks := (c.call urls x).tasks.set c.tasks.length ⟨u, h, .reading .new⟩ }, []) := by
        change (c.call urls x).stepTask _ _ = _
        rw [HttpClient.stepTask, hget]
        rfl
      refine ⟨_, _, _, Mealy.run_concat.mpr ⟨_, _, _, hcall, hstep, rfl⟩, ?_, ?_⟩
      · rw [callsOf_append, callsOf_append]
        simp [callsOf, HttpAct.call?]
      · intro t ht
        dsimp only at ht
        rw [heq, List.set_append_right _ _ le_rfl, List.mem_append, Nat.sub_self,
          List.set_cons_zero, List.mem_singleton] at ht
        rcases ht with ht | rfl
        · exact hc t ht
        · rfl

/-- All subscriptions that the calls make are to the stream of the endpoint, and there is at most
one. -/
theorem AlwaysDelivers.tasks (hall : AlwaysDelivers urls base calls) (hp : calls' <+: calls) :
    (∀ t ∈ (HttpClient.called urls base calls').tasks,
      (EventSlot.called urls base calls').stream urls = some t.url) ∧
    (HttpClient.called urls base calls').tasks.length ≤ 1 := by
  obtain ⟨acts, c, tr, hr, rfl, hread⟩ := exists_run_reading urls base calls'
  obtain ⟨-, htasks, hfresh⟩ := run_tracks hr
  let e : SseEvent := ⟨[], [], by simp, by simp, by simp⟩
  have hreads : ∀ t ∈ c.tasks, ∀ u, t.readsFrom u = decide (t.url = u) := by
    intro t ht u
    rw [SseTask.readsFrom, hread t ht]
    simp
  have hpush : ∀ u, (c.tasks.filter (SseTask.readsFrom u)).map (fun t => (t.handler,
      Utf8.encode e.received)) = (EventSlot.called urls base (callsOf acts)).deliver urls
        (c.connected u) u e := by
    intro u
    rw [← HttpClient.push_event hfresh]
    exact hall acts c tr hr hp u e
  have hstream : ∀ t ∈ c.tasks,
      (EventSlot.called urls base (callsOf acts)).stream urls = some t.url := by
    intro t ht
    by_contra hne
    have hmem : t ∈ c.tasks.filter (SseTask.readsFrom t.url) := by
      rw [List.mem_filter, hreads t ht]
      simp [ht]
    have hnil := hpush t.url
    rw [EventSlot.deliver, if_neg fun h => hne h.1, List.map_eq_nil_iff] at hnil
    rw [hnil] at hmem
    cases hmem
  constructor
  · intro t ht
    have hmem := List.mem_map_of_mem (f := SseTask.captured) ht
    rw [← htasks, List.mem_map] at hmem
    obtain ⟨t', ht', heq⟩ := hmem
    rw [← (Prod.mk.inj heq).1]
    exact hstream t' ht'
  · have hlen := congrArg List.length htasks
    rw [List.length_map, List.length_map] at hlen
    rw [← hlen]
    cases hc : c.tasks with
    | nil => exact Nat.zero_le _
    | cons t ts =>
      have hsame : c.tasks.filter (SseTask.readsFrom t.url) = c.tasks := by
        rw [List.filter_eq_self]
        intro t' ht'
        have ht : t ∈ c.tasks := by
          rw [hc]
          exact List.mem_cons_self
        rw [hreads t' ht', decide_eq_true_iff]
        exact Option.some.inj ((hstream t' ht').symm.trans (hstream t ht))
      have hcount := congrArg List.length (hpush t.url)
      rw [hsame, List.length_map] at hcount
      rw [← hc, hcount]
      exact (EventSlot.called urls base (callsOf acts)).length_deliver_le urls _ _ _

end Runs

end NotifiTransport

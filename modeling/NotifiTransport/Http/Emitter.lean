import NotifiTransport.Core.Error
import Mathlib.Logic.Function.Basic

/-! # Broadcasts to SSE clients

An emitter is a handle on the unbounded channel of one client; clones share the channel. The channel
is closed when the client has disconnected. `broadcast_sse_json` keeps the emitters on which
`send_json` succeeds, and that also fails when the value cannot be serialised.
-/

namespace NotifiTransport

/-- The channel of a client: whether its receiver is there, and what was sent. -/
structure SseChannel (Event : Type) where
  connected : Bool
  queue : List Event

/-- All channels by number. -/
abbrev SseChannels (Event : Type) := ℕ → SseChannel Event

structure SseEmitter where
  tx : ℕ
  deriving DecidableEq

variable {Event T : Type}

namespace SseEmitter

def isAlive (w : SseChannels Event) (e : SseEmitter) : Bool := (w e.tx).connected

/-- The channels with one more event in the channel of the emitter. -/
def pushed (w : SseChannels Event) (e : SseEmitter) (event : Event) : SseChannels Event :=
  Function.update w e.tx { w e.tx with queue := (w e.tx).queue ++ [event] }

/-- `UnboundedSender::send`. -/
def push (w : SseChannels Event) (e : SseEmitter) (event : Event) :
    SseChannels Event × Except TransportError Unit :=
  if (w e.tx).connected then (e.pushed w event, .ok ()) else (w, .error .sseStreamClosed)

/-- `build` is axum's event with a type and data, `none` where it panics. -/
def send (build : Text → Text → Option Event) (w : SseChannels Event) (e : SseEmitter)
    (eventType data : Text) : Option (SseChannels Event × Except TransportError Unit) := do
  let event ← build eventType data
  return e.push w event

/-- `toJson` is `serde_json::to_string`. -/
def sendJson (build : Text → Text → Option Event) (toJson : T → Except Text Text)
    (w : SseChannels Event) (e : SseEmitter) (eventType : Text) (data : T) :
    Option (SseChannels Event × Except TransportError Unit) :=
  match toJson data with
  | .error err => some (w, .error (.encodeError err))
  | .ok json => e.send build w eventType json

end SseEmitter

/-- `Vec::retain` with the emitters that take the event; `none` for a panic. -/
def broadcastSseJson (build : Text → Text → Option Event) (toJson : T → Except Text Text)
    (w : SseChannels Event) (eventType : Text) (data : T) :
    List SseEmitter → Option (SseChannels Event × List SseEmitter)
  | [] => some (w, [])
  | e :: es =>
    if !e.isAlive w then broadcastSseJson build toJson w eventType data es
    else do
      let (w, r) ← e.sendJson build toJson w eventType data
      let (w, kept) ← broadcastSseJson build toJson w eventType data es
      return (w, if r.isOk then e :: kept else kept)

/-- The event that a broadcast sends, if there is one. -/
def sseEvent (build : Text → Text → Option Event) (toJson : T → Except Text Text)
    (eventType : Text) (data : T) : Option Event :=
  match toJson data with
  | .error _ => none
  | .ok json => build eventType json

/-- The broadcast keeps the live emitters in their order, and the channel of each gets the event
once for each of them. -/
def BroadcastReaches (build : Text → Text → Option Event) (toJson : T → Except Text Text)
    (w : SseChannels Event) (eventType : Text) (data : T) (es : List SseEmitter) : Prop :=
  ∃ w', broadcastSseJson build toJson w eventType data es =
      some (w', es.filter (·.isAlive w)) ∧
    ∀ i, (w' i).connected = (w i).connected ∧ (w' i).queue = (w i).queue ++
      (es.filter fun e => e.tx == i && e.isAlive w).flatMap fun _ =>
        (sseEvent build toJson eventType data).toList

variable {build : Text → Text → Option Event} {toJson : T → Except Text Text}
  {w : SseChannels Event} {eventType : Text} {data : T} {e : SseEmitter} {es : List SseEmitter}
  {event : Event}

theorem SseEmitter.sendJson_of_event (h : sseEvent build toJson eventType data = some event) :
    e.sendJson build toJson w eventType data = some (e.push w event) := by
  unfold sseEvent at h
  cases hj : toJson data with
  | error err =>
    rw [hj] at h
    cases h
  | ok json =>
    rw [hj] at h
    dsimp only at h
    simp only [sendJson, send, hj, h]
    rfl

theorem broadcastSseJson_dead (h : e.isAlive w = false) :
    broadcastSseJson build toJson w eventType data (e :: es) =
      broadcastSseJson build toJson w eventType data es := by
  rw [broadcastSseJson, h]
  rfl

theorem broadcastSseJson_live (ha : e.isAlive w = true)
    (h : sseEvent build toJson eventType data = some event) :
    broadcastSseJson build toJson w eventType data (e :: es) =
      (broadcastSseJson build toJson (e.pushed w event) eventType data es).map
        fun r => (r.1, e :: r.2) := by
  have hpush : e.push w event = (e.pushed w event, .ok ()) := if_pos ha
  rw [broadcastSseJson, ha, SseEmitter.sendJson_of_event h, hpush]
  simp only [Bool.not_true, Bool.false_eq_true, if_false, Option.bind_eq_bind, Option.bind_some]
  cases broadcastSseJson build toJson (e.pushed w event) eventType data es <;> rfl

/-- Sending closes no channel. -/
theorem connected_pushed (w : SseChannels Event) (e : SseEmitter) (event : Event) (i : ℕ) :
    (e.pushed w event i).connected = (w i).connected := by
  by_cases h : i = e.tx
  · rw [h, SseEmitter.pushed, Function.update_self]
  · rw [SseEmitter.pushed, Function.update_of_ne h]

theorem queue_pushed (w : SseChannels Event) (e : SseEmitter) (event : Event) (i : ℕ) :
    (e.pushed w event i).queue = (w i).queue ++ if e.tx = i then [event] else [] := by
  by_cases h : e.tx = i
  · rw [if_pos h, ← h, SseEmitter.pushed, Function.update_self]
  · rw [if_neg h, SseEmitter.pushed, Function.update_of_ne (Ne.symm h), List.append_nil]

/-- With an event to send, every live emitter sends it and stays. -/
theorem broadcastReaches_of_event (h : sseEvent build toJson eventType data = some event) :
    BroadcastReaches build toJson w eventType data es := by
  induction es generalizing w with
  | nil => exact ⟨w, rfl, fun i => ⟨rfl, (List.append_nil _).symm⟩⟩
  | cons e es ih =>
    cases ha : e.isAlive w with
    | false =>
      obtain ⟨w', hrun, hqueue⟩ := ih (w := w)
      refine ⟨w', ?_, ?_⟩
      · rw [broadcastSseJson_dead ha, hrun, List.filter_cons_of_neg (by simp [ha])]
      · intro i
        rw [List.filter_cons_of_neg (by simp [ha])]
        exact hqueue i
    | true =>
      have halive : ∀ e' : SseEmitter, e'.isAlive (e.pushed w event) = e'.isAlive w :=
        fun e' => connected_pushed w e event e'.tx
      obtain ⟨w', hrun, hqueue⟩ := ih (w := e.pushed w event)
      simp only [halive] at hrun hqueue
      refine ⟨w', ?_, ?_⟩
      · rw [broadcastSseJson_live ha h, hrun, List.filter_cons_of_pos ha]
        rfl
      · intro i
        obtain ⟨hc, hq⟩ := hqueue i
        rw [hc, hq, connected_pushed, queue_pushed, List.filter_cons]
        refine ⟨rfl, ?_⟩
        by_cases hi : e.tx = i
        · simp [ha, hi, h]
        · simp [hi]

/-- Without one, no emitter is left, whether its client is connected or not. -/
theorem broadcastSseJson_of_none (h : sseEvent build toJson eventType data = none)
    {r : SseChannels Event × List SseEmitter}
    (hr : broadcastSseJson build toJson w eventType data es = some r) : r = (w, []) := by
  induction es generalizing r with
  | nil =>
    cases hr
    rfl
  | cons e es ih =>
    cases ha : e.isAlive w with
    | false =>
      rw [broadcastSseJson_dead ha] at hr
      exact ih hr
    | true =>
      rw [broadcastSseJson, ha] at hr
      unfold sseEvent at h
      cases hj : toJson data with
      | error err =>
        -- a serialisation error removes the emitter
        have hsend : e.sendJson build toJson w eventType data =
            some (w, .error (.encodeError err)) := by rw [SseEmitter.sendJson, hj]
        rw [hsend] at hr
        obtain ⟨⟨w₁, kept⟩, hrest, hlast⟩ := Option.bind_eq_some_iff.mp hr
        cases hlast
        exact ih hrest
      | ok json =>
        rw [hj] at h
        have hsend : e.sendJson build toJson w eventType data = none := by
          dsimp only at h
          simp only [SseEmitter.sendJson, SseEmitter.send, hj, h]
          rfl
        rw [hsend] at hr
        cases hr

theorem broadcastReaches_of_dead (h : ∀ e ∈ es, e.isAlive w = false) :
    BroadcastReaches build toJson w eventType data es := by
  have hkept : es.filter (·.isAlive w) = [] := List.filter_eq_nil_iff.mpr (by simpa using h)
  refine ⟨w, ?_, ?_⟩
  · rw [hkept]
    induction es with
    | nil => rfl
    | cons e es ih =>
      obtain ⟨he, hes⟩ := List.forall_mem_cons.mp h
      rw [broadcastSseJson_dead he]
      exact ih hes (List.filter_eq_nil_iff.mpr (by simpa using hes))
  · intro i
    rw [← List.filter_filter, hkept]
    exact ⟨rfl, (List.append_nil _).symm⟩

/-- A value that cannot be serialised, and a client that is connected. -/
theorem broadcastSseJson_unserialisable :
    ¬ BroadcastReaches (fun t d => some (t, d))
      (fun _ : Unit => .error "key must be a string".toList) (fun _ => ⟨true, []⟩)
      "status".toList () [⟨0⟩] := by
  rintro ⟨w', hrun, -⟩
  cases hrun

/-- A broadcast does what it says exactly if there is an event to send or no client is left. -/
theorem broadcastReaches_iff (build : Text → Text → Option Event) (toJson : T → Except Text Text)
    (w : SseChannels Event) (eventType : Text) (data : T) (es : List SseEmitter) :
    BroadcastReaches build toJson w eventType data es ↔
      (∃ event, sseEvent build toJson eventType data = some event) ∨
        ∀ e ∈ es, e.isAlive w = false := by
  constructor
  · rintro ⟨w', hrun, -⟩
    cases h : sseEvent build toJson eventType data with
    | some event => exact Or.inl ⟨event, rfl⟩
    | none =>
      have hkept : es.filter (·.isAlive w) = [] :=
        congrArg Prod.snd (broadcastSseJson_of_none h hrun)
      exact Or.inr (by simpa using hkept)
  · rintro (⟨event, h⟩ | h)
    · exact broadcastReaches_of_event h
    · exact broadcastReaches_of_dead h

end NotifiTransport

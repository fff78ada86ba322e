import NotifiTransport.Client.Connection
import NotifiTransport.Crypto.Ideal
import NotifiTransport.Frame.Postcard
import NotifiTransport.Frame.Receiver
import NotifiTransport.Lib.Channel

/-! # The books of the message loop

A frame is in the channel, in the scheduler, on its way or on the wire. The books list the frames
on the wire with the queues they came from and the chunks they were cut into. As long as the
socket takes what is written and no command disconnects, a step of the loop keeps the books, and
the loop waits in its `select!` with nothing in the scheduler.
-/

namespace NotifiTransport

/-- A frame on the wire: its queue in the scheduler, `none` for a heartbeat, and its chunks. -/
structure WireFrame where
  frame : Frame
  queue : Option (Fin 4)
  chunks : List Bytes

/-- On its way from `session` the session of the connection has encrypted the frames of the list, in
this order and each in one call of `encrypt_chunked`, and has read packets in between. -/
inductive Encrypted {snow : Snow} (pc : Postcard) (session : NoiseSession snow) :
    List WireFrame → NoiseSession snow → Prop where
  | start : Encrypted pc session [] session
  | read {ws : List WireFrame} {noise noise' : NoiseSession snow} {data p : Bytes} :
    Encrypted pc session ws noise → noise.readMessage data data.length = (noise', .ok p) →
    Encrypted pc session ws noise'
  /-- A heartbeat is given up. -/
  | failed {ws : List WireFrame} {noise noise' : NoiseSession snow} {encoded : Bytes}
    {e : CryptoError} : Encrypted pc session ws noise →
    noise.encryptChunked encoded = (noise', .error e) → Encrypted pc session ws noise'
  | frame {ws : List WireFrame} {noise noise' : NoiseSession snow} {encoded : Bytes}
    (w : WireFrame) : Encrypted pc session ws noise → encodeFrame pc w.frame = .ok encoded →
    noise.encryptChunked encoded = (noise', .ok w.chunks) → Encrypted pc session (ws ++ [w]) noise'

def Effect.chunk? : Effect → Option Bytes
  | .send (.binary c) => some c
  | _ => none

def Effect.wrote? : Effect → Option Frame
  | .wrote f => some f
  | _ => none

/-- The binary messages of a trace, in the order on the wire. -/
def sentChunks (tr : List Effect) : List Bytes := tr.filterMap Effect.chunk?

/-- The frames of which a trace has written the last chunk. -/
def writtenFrames (tr : List Effect) : List Frame := tr.filterMap Effect.wrote?

def ClientCmd.frameFor? (i : Fin 4) : ClientCmd → Option Frame
  | .send frame priority => if priority.toFin = i then some frame else none
  | _ => none

/-- The frames that the `Send` commands put into queue `i`. -/
def sendsTo (i : Fin 4) (cs : List ClientCmd) : List Frame := cs.filterMap (ClientCmd.frameFor? i)

def WireFrame.frameOf? (i : Fin 4) (w : WireFrame) : Option Frame :=
  if w.queue = some i then some w.frame else none

/-- The frames that went from queue `i` to the wire. -/
def framesOf (i : Fin 4) (ws : List WireFrame) : List Frame := ws.filterMap (WireFrame.frameOf? i)

variable {snow : Snow}

/-- The commands `cs` have been taken and `tr` has happened. Each frame of `ws` has its chunks
next to each other, and `current` and `rest` are what is still missing of the last one. For each
queue, the frames of its commands are those of `ws` and then the waiting ones. -/
structure Books (pc : Postcard) (session noise : NoiseSession snow) (cs : List ClientCmd)
    (tr : List Effect) (ws : List WireFrame) (current : List Frame) (rest : List Bytes)
    (waiting : Fin 4 → List Frame) : Prop where
  encrypted : Encrypted pc session ws noise
  heartbeat : ∀ w ∈ ws, w.queue = none → w.frame = pingFrame
  frames : writtenFrames tr ++ current = ws.map (·.frame)
  chunks : sentChunks tr ++ rest = ws.flatMap (·.chunks)
  sends : ∀ i, sendsTo i cs = framesOf i ws ++ waiting i

/-- The command that an input takes from the channel. -/
def Input.taken : Input → List ClientCmd
  | .cmd c => [c]
  | _ => []

/-- No error of the socket, and no command that disconnects. -/
def Input.smooth : Input → Bool
  | .sent (.error _) => false
  | .cmd c => !Loop.isControl c
  | _ => true

variable {pc : Postcard} {session noise noise' : NoiseSession snow} {cs : List ClientCmd}
  {tr o : List Effect}
  {ws : List WireFrame} {current : List Frame} {rest : List Bytes} {waiting : Fin 4 → List Frame}

theorem Books.empty : Books pc session session [] [] [] [] [] fun _ => [] where
  encrypted := .start
  heartbeat := by simp
  frames := rfl
  chunks := rfl
  sends _ := rfl

/-- A packet is read, or a heartbeat is given up. -/
theorem Books.move (h : Books pc session noise cs tr ws current rest waiting)
    (he : Encrypted pc session ws noise') :
    Books pc session noise' cs tr ws current rest waiting :=
  { h with encrypted := he }

/-- Effects that neither send nor complete a frame do not matter. -/
theorem Books.append (h : Books pc session noise cs tr ws current rest waiting)
    (hw : writtenFrames o = []) (hc : sentChunks o = []) :
    Books pc session noise cs (tr ++ o) ws current rest waiting where
  encrypted := h.encrypted
  heartbeat := h.heartbeat
  frames := by
    rw [writtenFrames, List.filterMap_append]
    change writtenFrames tr ++ writtenFrames o ++ current = _
    rw [hw, List.append_nil]
    exact h.frames
  chunks := by
    rw [sentChunks, List.filterMap_append]
    change sentChunks tr ++ sentChunks o ++ rest = _
    rw [hc, List.append_nil]
    exact h.chunks
  sends := h.sends

/-- The last chunk is out. -/
theorem Books.wrote {f : Frame} (h : Books pc session noise cs tr ws [f] [] waiting) :
    Books pc session noise cs (tr ++ [.wrote f]) ws [] [] waiting where
  encrypted := h.encrypted
  heartbeat := h.heartbeat
  frames := by
    rw [writtenFrames, List.filterMap_append, List.append_nil]
    exact h.frames
  chunks := by
    rw [sentChunks, List.filterMap_append]
    exact (List.append_nil _).trans h.chunks
  sends := h.sends

theorem Books.sent {c : Bytes} (h : Books pc session noise cs tr ws current (c :: rest) waiting) :
    Books pc session noise cs (tr ++ [.send (.binary c)]) ws current rest waiting where
  encrypted := h.encrypted
  heartbeat := h.heartbeat
  frames := by
    rw [writtenFrames, List.filterMap_append]
    exact (congrArg (· ++ current) (List.append_nil _)).trans h.frames
  chunks := by
    rw [sentChunks, List.filterMap_append, List.append_assoc]
    exact h.chunks
  sends := h.sends

/-- A `Send` command puts its frame at the end of the queue of its priority. -/
theorem Books.enqueue {s : WfqScheduler Frame} (f : Frame) (p : MessagePriority)
    (h : Books pc session noise cs tr ws current rest s.queues) :
    Books pc session noise (cs ++ [.send f p]) tr ws current rest (s.enqueue f p).queues where
  encrypted := h.encrypted
  heartbeat := h.heartbeat
  frames := h.frames
  chunks := h.chunks
  sends i := by
    rw [sendsTo, List.filterMap_append]
    change sendsTo i cs ++ _ = _
    rw [h.sends i, WfqScheduler.enqueue]
    by_cases hi : p.toFin = i
    · subst hi
      simp [ClientCmd.frameFor?]
    · simp [ClientCmd.frameFor?, hi, Function.update_of_ne (Ne.symm hi)]

/-- The commands that do not send are not in the books. -/
theorem Books.taken {c : ClientCmd} (hc : ∀ i, c.frameFor? i = none)
    (h : Books pc session noise cs tr ws current rest waiting) :
    Books pc session noise (cs ++ [c]) tr ws current rest waiting where
  encrypted := h.encrypted
  heartbeat := h.heartbeat
  frames := h.frames
  chunks := h.chunks
  sends i := by
    rw [sendsTo, List.filterMap_append, List.filterMap_cons_none (hc i)]
    exact (List.append_nil _).trans (h.sends i)

/-- A new frame begins, from the head of a queue or as a heartbeat. -/
theorem Books.begin (w : WireFrame) (waiting' : Fin 4 → List Frame)
    {encoded : Bytes} (h : Books pc session noise cs tr ws [] [] waiting)
    (he : encodeFrame pc w.frame = .ok encoded)
    (hc : noise.encryptChunked encoded = (noise', .ok w.chunks))
    (hn : w.queue = none → w.frame = pingFrame)
    (hw : ∀ i, waiting i = (w.frameOf? i).toList ++ waiting' i) :
    Books pc session noise' cs tr (ws ++ [w]) [w.frame] w.chunks waiting' where
  encrypted := .frame w h.encrypted he hc
  heartbeat := by
    intro v hv
    rcases List.mem_append.mp hv with hv | hv
    · exact h.heartbeat v hv
    · rw [List.mem_singleton.mp hv]
      exact hn
  frames := by
    have hf := h.frames
    rw [List.append_nil] at hf
    rw [hf, List.map_append]
    rfl
  chunks := by
    have hc := h.chunks
    rw [List.append_nil] at hc
    rw [hc, List.flatMap_append]
    simp
  sends i := by
    rw [h.sends i, hw i, ← List.append_assoc]
    congr 1
    rw [framesOf, framesOf, List.filterMap_append]
    cases hi : w.frameOf? i <;> simp [hi]

namespace MsgLoop

variable {cfg : WsClientConfig} {now : ℕ} {m m' : MsgLoop snow} {i : Input}

/-- The frame on its way, and the chunks of it that are still to be sent. -/
def unwritten (m : MsgLoop snow) : List Frame × List Bytes :=
  match m.phase with
  | .writing f rest => ([f], rest)
  | .pinging rest => ([pingFrame], rest)
  | _ => ([], [])

/-- Outside the branch of a `Send` command the scheduler is empty, and no command has disconnected
the loop. -/
def Smooth (m : MsgLoop snow) : Prop :=
  match m.phase with
  | .select | .pinging _ => m.scheduler.isEmpty = true
  | .draining disconnect => disconnect = false
  | .drainClosing => False
  | .writing _ _ | .closing => True

/-- The state agrees with the books of a connection that began with this session. -/
def Kept (pc : Postcard) (session : NoiseSession snow) (cs : List ClientCmd) (tr : List Effect)
    (m : MsgLoop snow) : Prop :=
  m.Smooth ∧ ∃ ws,
    Books pc session m.noise cs tr ws m.unwritten.1 m.unwritten.2 m.scheduler.queues

theorem kept_writeChunks {f : Frame} {chunks : List Bytes}
    (h : Books pc session m.noise cs tr ws [f] chunks m.scheduler.queues) :
    Kept pc session cs (tr ++ (m.writeChunks f chunks).2) (m.writeChunks f chunks).1 := by
  cases chunks with
  | nil => exact ⟨rfl, ws, h.wrote⟩
  | cons c rest => exact ⟨trivial, ws, h.sent⟩

theorem kept_pingChunks (cfg : WsClientConfig) (now : ℕ) {chunks : List Bytes}
    (he : m.scheduler.isEmpty = true)
    (h : Books pc session m.noise cs tr ws [pingFrame] chunks m.scheduler.queues) :
    Kept pc session cs (tr ++ (m.pingChunks cfg now chunks).2) (m.pingChunks cfg now chunks).1 := by
  cases chunks with
  | nil => exact ⟨he, ws, h.wrote⟩
  | cons c rest => exact ⟨he, ws, h.sent⟩

theorem kept_pump (h : Books pc session m.noise cs tr ws [] [] m.scheduler.queues)
    (hm : (m.pump pc).1 = some m') : Kept pc session cs (tr ++ (m.pump pc).2) m' := by
  rcases m.pump_cases pc with
    ⟨scheduler, hpop, hp⟩ | hp | ⟨f, scheduler, payload, noise, chunks, hpop, he, hc, hp⟩ <;>
    rw [hp] at hm ⊢ <;> cases hm
  · obtain ⟨hm, hs⟩ := WfqScheduler.pop_none hpop
    have hq : scheduler.queues = m.scheduler.queues := by
      funext i
      rw [WfqScheduler.isEmpty_iff.mp hm i, WfqScheduler.isEmpty_iff.mp hs i]
    refine ⟨hs, ws, ?_⟩
    rw [List.append_nil, hq]
    exact h
  · -- the head of queue `i` goes on the wire
    rcases m.scheduler.pop_cases with ⟨-, hpop'⟩ | ⟨i, x, rest, c, hq, hpop'⟩ <;>
      rw [hpop'] at hpop <;> cases hpop
    have hw : ∀ j, m.scheduler.queues j = (WireFrame.frameOf? j ⟨f, some i, chunks⟩).toList ++
        Function.update m.scheduler.queues i rest j := by
      intro j
      by_cases hj : i = j
      · subst hj
        simp [WireFrame.frameOf?, hq]
      · simp [WireFrame.frameOf?, hj, Function.update_of_ne (Ne.symm hj)]
    have hb := h.begin ⟨f, some i, chunks⟩ _ he hc (by rintro ⟨⟩) hw
    have hk := kept_writeChunks
      (m := { m with scheduler := ⟨Function.update m.scheduler.queues i rest, c⟩, noise := noise })
      (hb.append (o := [.transmit f]) rfl rfl)
    rw [List.append_assoc] at hk
    exact hk

theorem kept_onHeartbeat (hp : m.phase = .select) (h : Kept pc session cs tr m)
    (hm : (m.onHeartbeat pc cfg now).1 = some m') :
    Kept pc session cs (tr ++ (m.onHeartbeat pc cfg now).2) m' := by
  obtain ⟨he, ws, hb⟩ := h
  simp only [Smooth, unwritten, hp] at he hb
  rcases m.onHeartbeat_cases pc cfg now with
    ho | ho | ⟨payload, noise, _, hf, hc, ⟨e, rfl, ho⟩ | ⟨chunks, rfl, ho⟩⟩ <;>
    rw [ho] at hm ⊢ <;> cases hm
  · exact ⟨trivial, ws, hb.append rfl rfl⟩
  · exact ⟨he, ws, hb.append rfl rfl⟩
  · exact ⟨he, ws, (hb.move (.failed hb.encrypted hc)).append rfl rfl⟩
  · have hb' := hb.begin ⟨pingFrame, none, chunks⟩ _ hf hc (fun _ => rfl) (fun _ => rfl)
    have hk := kept_pingChunks cfg now (m := { m with noise := noise }) he
      (hb'.append (o := [.transmit pingFrame]) rfl rfl)
    rw [List.append_assoc] at hk
    exact hk

theorem kept_onPacket (hp : m.phase = .select) (h : Kept pc session cs tr m) {data : Bytes}
    (hm : (m.onPacket pc cfg now data).1 = some m') :
    Kept pc session cs (tr ++ (m.onPacket pc cfg now data).2) m' := by
  obtain ⟨he, ws, hb⟩ := h
  simp only [Smooth, unwritten, hp] at he hb
  unfold onPacket at hm ⊢
  dsimp only at hm ⊢
  split at hm <;> cases hm
  next noise acc f hr =>
  obtain ⟨p, hread, -⟩ := receive_ok hr
  refine ⟨by simpa only [Smooth, hp] using he, ws, ?_⟩
  simp only [unwritten, hp]
  apply (hb.move (.read hb.encrypted hread)).append
  · cases f <;> rfl
  · cases f <;> rfl

theorem kept_onCmd (hp : m.phase = .select) (h : Kept pc session cs tr m) {c : ClientCmd}
    (hc : Loop.isControl c = false) (hm : (m.onCmd pc c).1 = some m') :
    Kept pc session (cs ++ [c]) (tr ++ (m.onCmd pc c).2) m' := by
  obtain ⟨he, ws, hb⟩ := h
  simp only [Smooth, unwritten, hp] at he hb
  cases c with
  | send frame priority =>
    exact kept_pump (m := { m with scheduler := m.scheduler.enqueue frame priority })
      (hb.enqueue frame priority) hm
  | endpointChanged | reconnect => cases hc
  | wakeUp =>
    cases hm
    refine ⟨by simpa only [Smooth, hp] using he, ws, ?_⟩
    simp only [unwritten, hp]
    exact (hb.taken fun _ => rfl).append rfl rfl

theorem kept_onDrain {disconnect : Bool} (hp : m.phase = .draining disconnect)
    (h : Kept pc session cs tr m) {c : ClientCmd} (hc : Loop.isControl c = false)
    (hm : (m.onDrain disconnect c).1 = some m') :
    Kept pc session (cs ++ [c]) (tr ++ (m.onDrain disconnect c).2) m' := by
  obtain ⟨he, ws, hb⟩ := h
  simp only [Smooth, unwritten, hp] at he hb
  cases c with
  | send frame priority =>
    cases hm
    exact ⟨he, ws, (hb.enqueue frame priority).append rfl rfl⟩
  | endpointChanged | reconnect => cases hc
  | wakeUp =>
    cases hm
    exact ⟨he, ws, (hb.taken fun _ => rfl).append rfl rfl⟩

theorem Kept.untaken (h : Kept pc session cs tr m) (hi : i.taken = []) :
    Kept pc session (cs ++ i.taken) tr m := by
  rw [hi, List.append_nil]
  exact h

/-- A step without a socket error or a disconnect keeps the books. -/
theorem step_kept {r : Option (MsgLoop snow) × List Effect} (hk : Kept pc session cs tr m)
    (hi : i.smooth) (h : m.step pc cfg now i = some r) (hm : r.1 = some m') :
    Kept pc session (cs ++ i.taken) (tr ++ .resumed i :: r.2) m' := by
  have hr : Kept pc session cs (tr ++ [Effect.resumed i]) m := by
    obtain ⟨hs, ws, hb⟩ := hk
    exact ⟨hs, ws, hb.append rfl rfl⟩
  rw [← List.singleton_append, ← List.append_assoc]
  cases hp : m.phase <;> simp only [step, hp] at h
  case select =>
    split at h <;> cases h
    · cases hm
    · exact (kept_onPacket hp hr hm).untaken rfl
    · cases hm
    · exact kept_onCmd hp hr (by simpa [Input.smooth] using hi) hm
    · exact (kept_onHeartbeat hp hr hm).untaken rfl
  case writing f rest =>
    obtain ⟨-, ws, hb⟩ := hr
    simp only [unwritten, hp] at hb
    split at h <;> cases h
    · cases hm
      exact (kept_writeChunks hb).untaken rfl
    · cases hm
  case draining disconnect =>
    split at h <;> cases h
    · exact kept_onDrain hp hr (by simpa [Input.smooth] using hi) hm
    · obtain ⟨hs, ws, hb⟩ := hr
      simp only [Smooth, unwritten, hp] at hs hb
      subst hs
      exact (kept_pump hb hm).untaken rfl
  case drainClosing =>
    have hs := hk.1
    simp only [Smooth, hp] at hs
  case pinging rest =>
    obtain ⟨hs, ws, hb⟩ := hr
    simp only [Smooth, unwritten, hp] at hs hb
    split at h <;> cases h
    · cases hm
      exact (kept_pingChunks cfg now hs hb).untaken rfl
    · cases hi
  case closing =>
    split at h <;> cases h
    cases hm

theorem machine_step {t t' : Option (MsgLoop snow)} {x : ℕ × Input} :
    (machine pc cfg snow).step t x = some (t', o) ↔
      ∃ m r, t = some m ∧ m.step pc cfg x.1 x.2 = some r ∧ t' = r.1 ∧ o = .resumed x.2 :: r.2 := by
  rcases t with _ | m
  · simp [machine]
  · simp only [machine, Option.map_eq_some_iff, Prod.mk.injEq, Option.some.injEq]
    constructor
    · rintro ⟨r, hr, rfl, rfl⟩
      exact ⟨m, r, rfl, hr, rfl, rfl⟩
    · rintro ⟨_, r, rfl, hr, rfl, rfl⟩
      exact ⟨r, hr, rfl, rfl⟩

theorem run_kept {is : List (ℕ × Input)} {t : Option (MsgLoop snow)}
    (h : (machine pc cfg snow).run (some (start cfg now session)) is = some (t, tr))
    (hi : ∀ x ∈ is, x.2.smooth) (m : MsgLoop snow) (ht : t = some m) :
    Kept pc session (is.flatMap (·.2.taken)) tr m := by
  refine Mealy.run_induction (P := fun is tr t => (∀ x ∈ is, x.2.smooth) → ∀ m, t = some m →
    Kept pc session (is.flatMap (·.2.taken)) tr m) ?_ ?_ h hi m ht
  · rintro - _ ⟨⟩
    exact ⟨WfqScheduler.isEmpty_new, [], Books.empty⟩
  · rintro is tr t x t' o - ih hs hi m' rfl
    obtain ⟨m, r, rfl, hst, hr, rfl⟩ := machine_step.mp hs
    have hk := ih (fun y hy => hi y (List.mem_append_left _ hy)) m rfl
    rw [List.flatMap_append]
    simpa using step_kept hk (hi x (by simp)) hst hr.symm

/-- `cmd_rx.recv()` and `cmd_rx.try_recv()` on a channel with these commands. -/
def reads (x : ℕ × Input) (queue : List ClientCmd) : Option (List ClientCmd) :=
  match x.2 with
  | .cmd c => if queue.head? = some c then some queue.tail else none
  | .noCmd => if queue = [] then some [] else none
  | _ => some queue

theorem reads_taken (x : ℕ × Input) (q q' : List ClientCmd) (h : reads x q = some q') :
    q = x.2.taken ++ q' := by
  unfold reads at h
  split at h
  · next c hx =>
    obtain ⟨hq, hrest⟩ := Option.ite_none_right_eq_some.mp h
    cases hrest
    rw [hx, Input.taken]
    exact List.eq_cons_of_mem_head? hq
  · next hx =>
    obtain ⟨rfl, hrest⟩ := Option.ite_none_right_eq_some.mp h
    cases hrest
    rw [hx]
    rfl
  · next hcmd _ =>
    cases h
    cases hx : x.2
    case cmd c => exact absurd hx (hcmd c)
    all_goals rfl

/-- Whenever the loop is back at its `select!` the scheduler is empty, and the books are closed: of
the commands that were in the channel or arrived since, each `Send` the loop has taken is on the
wire once, in the order of arrival within its priority, with its chunks next to each other. -/
theorem run_drained {q q' : List ClientCmd}
    {es : List (ClientCmd ⊕ ℕ × Input)}
    (h : ((machine pc cfg snow).behind reads).run (some (start cfg now session), q) es =
      some ((some m, q'), tr))
    (hi : ∀ x ∈ Mealy.inputs es, x.2.smooth) (hm : m.phase = .select) :
    m.scheduler.isEmpty = true ∧ ∃ taken ws, q ++ Mealy.arrivals es = taken ++ q' ∧
      Books pc session m.noise taken tr ws [] [] fun _ => [] := by
  obtain ⟨hr, hq⟩ := Mealy.run_behind reads_taken h
  obtain ⟨hs, ws, hb⟩ := run_kept hr hi m rfl
  simp only [Smooth, unwritten, hm] at hs hb
  have hw : m.scheduler.queues = fun _ => [] := funext (WfqScheduler.isEmpty_iff.mp hs)
  rw [hw] at hb
  exact ⟨hs, _, ws, hq, hb⟩

def oneEvent (b : UInt8) : Frame := ⟨0, .event, [b]⟩

/-- A `RealTime` event arrives while a `Bulk` event is being written. -/
def sendingTwo : List (ClientCmd ⊕ ℕ × Input) :=
  [.inr (0, .cmd (.send (oneEvent 1) .bulk)), .inl (.send (oneEvent 2) .realTime),
    .inr (0, .sent (.ok ())), .inr (0, .cmd (.send (oneEvent 2) .realTime)), .inr (0, .noCmd),
    .inr (0, .sent (.ok ())), .inr (0, .noCmd)]

theorem run_drained_two : ∃ (m : MsgLoop (Snow.ideal Ideal.genuine)) (tr : List Effect),
    ((machine .wire .sample (Snow.ideal Ideal.genuine)).behind reads).run
        (some (start .sample 0 (Ideal.session _)), [.send (oneEvent 1) .bulk]) sendingTwo =
      some ((some m, []), tr) ∧
    m.scheduler.isEmpty = true ∧ ∃ taken ws,
      [.send (oneEvent 1) .bulk] ++ Mealy.arrivals sendingTwo = taken ++ [] ∧
      Books .wire (Ideal.session Ideal.genuine) m.noise taken tr ws [] [] fun _ => [] := by
  let r := ((machine .wire .sample (Snow.ideal Ideal.genuine)).behind reads).run
    (some (start .sample 0 (Ideal.session _)), [.send (oneEvent 1) .bulk]) sendingTwo
  have hr : r = some ((some ((r.get rfl).1.1.get rfl), []), (r.get rfl).2) := rfl
  exact ⟨_, _, hr, run_drained hr (by decide) rfl⟩

end MsgLoop

end NotifiTransport

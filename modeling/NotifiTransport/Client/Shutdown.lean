import NotifiTransport.Client.LoopRun
import NotifiTransport.Client.TakenRequests

/-! # Shutdown

The loop tests its cancellation at the top and in its `select!`s. Everything else that it awaits has
neither a cancellation branch nor, but for the authentication response, a timeout: the connection,
each send and close of the socket, the answers of the handshake and the calls of the auth handler.
A cancelled loop that waits there is in the hands of others.
-/

namespace NotifiTransport

/-- The end of an operation on the socket, or of a call of the auth handler. -/
def Input.fromOutside : Input → Bool
  | .connected _ | .sent _ | .next _ | .closed | .authPayload _ | .authOutcome _ => true
  | _ => false

/-- Time passes, or the loop goes on by itself: with a cancellation, with a timer that has fired, or
where it does not wait. -/
def Event.isLocal : Event → Bool
  | .tick _ => true
  | .loop i => !i.fromOutside
  | _ => false

/-- `ws.send` and `ws.close` inside the message loop. -/
def MsgPhase.deaf : MsgPhase → Bool
  | .writing _ _ | .drainClosing | .pinging _ | .closing => true
  | _ => false

/-- An await with neither a cancellation branch nor a timeout. -/
def Phase.deaf {snow : Snow} : Phase snow → Bool
  | .connecting _ | .sendHello _ | .awaitReply _ | .noiseSendE _ _ | .noiseAwait _ _
  | .noiseSendS _ _ | .authPayload _ _ | .authSend _ _ _ | .authProcess _ _ => true
  | .online _ m => m.phase.deaf
  | _ => false

/-- An await inside a connection with a timeout or a cancellation branch. -/
def Phase.guarded {snow : Snow} : Phase snow → Bool
  | .authAwait _ _ _ _ => true
  | .online _ m => m.phase = .select
  | _ => false

/-- The loop is suspended in an await. -/
def Phase.suspended {snow : Snow} (p : Phase snow) : Bool := p.deaf || p.receives || p.guarded

namespace MsgLoop

variable {snow : Snow} {pc : Postcard} {cfg : WsClientConfig} {now : ℕ} {m : MsgLoop snow}
  {i : Input} {r : Option (MsgLoop snow) × List Effect}

/-- The next frame of the scheduler is to be sent. -/
def BeginsSend (pc : Postcard) (m : MsgLoop snow) : Prop :=
  ∃ f scheduler payload noise c cs, m.scheduler.pop = (some f, scheduler) ∧
    encodeFrame pc f = .ok payload ∧ m.noise.encryptChunked payload = (noise, .ok (c :: cs))

/-- A heartbeat is to be sent. -/
def BeginsPing (pc : Postcard) (m : MsgLoop snow) : Prop :=
  ∃ payload noise c cs, encodeFrame pc pingFrame = .ok payload ∧
    m.noise.encryptChunked payload = (noise, .ok (c :: cs))

/-- A step that begins to send or to close. -/
def Overlooks (pc : Postcard) (m : MsgLoop snow) (i : Input) : Prop :=
  match m.phase, i with
  | .select, .cmd (.send f p) => BeginsSend pc { m with scheduler := m.scheduler.enqueue f p }
  | .select, .cmd c | .draining _, .cmd c => Loop.isControl c
  | .select, .elapsed => m.waitingForPong ∨ m.BeginsPing pc
  | .draining false, .noCmd => m.BeginsSend pc
  | _, _ => False

/-- The message loop goes on in a send or a close. -/
def Deafened (r : Option (MsgLoop snow)) : Prop := ∃ m, r = some m ∧ m.phase.deaf

theorem deafened_writeChunks (m : MsgLoop snow) (f : Frame) (cs : List Bytes) :
    Deafened (some (m.writeChunks f cs).1) ↔ cs ≠ [] := by
  cases cs <;> simp [Deafened, writeChunks, MsgPhase.deaf]

theorem deafened_pump (m : MsgLoop snow) : Deafened (m.pump pc).1 ↔ m.BeginsSend pc := by
  unfold BeginsSend
  rcases m.pump_cases pc with
    ⟨_, hpop, h⟩ | h | ⟨f, scheduler, payload, noise, chunks, hpop, he, hs, h⟩
  · rw [h]
    simp [Deafened, MsgPhase.deaf, hpop]
  · rw [h]
    simp only [Deafened, reduceCtorEq, false_and, exists_false, false_iff]
    rintro ⟨f, scheduler, payload, noise, c, cs, hpop, he, hs⟩
    simp [pump, hpop, he, hs] at h
  · rw [h]
    dsimp only
    rw [deafened_writeChunks]
    cases chunks <;> simp [hpop, he, hs]

theorem deafened_onHeartbeat (m : MsgLoop snow) :
    Deafened (m.onHeartbeat pc cfg now).1 ↔ m.waitingForPong ∨ m.BeginsPing pc := by
  unfold onHeartbeat BeginsPing
  split
  · next hw => simp [Deafened, MsgPhase.deaf, hw]
  · next hw =>
    rw [or_iff_right hw]
    split
    · next he => simp [Deafened, MsgPhase.deaf, pingSent, he]
    · next payload he =>
      split
      · next hs => simp [Deafened, MsgPhase.deaf, pingSent, he, hs]
      · next noise chunks hs =>
        cases chunks <;> simp [Deafened, MsgPhase.deaf, pingSent, pingChunks, he, hs]

theorem step_overlooks (hm : ¬ m.phase.deaf) (h : m.step pc cfg now i = some r) :
    m.Overlooks pc i ↔ Deafened r.1 := by
  cases hp : m.phase <;> rw [hp] at hm <;> simp only [MsgPhase.deaf, not_true_eq_false] at hm <;>
    simp only [step, hp] at h
  case select =>
    split at h <;> cases h <;> simp only [Overlooks, hp]
    · simp [Deafened]
    · unfold onPacket
      dsimp only
      split <;> simp [Deafened, hp, MsgPhase.deaf]
    · simp [Deafened]
    · next c =>
      cases c with
      | send f p => exact (deafened_pump _).symm
      | endpointChanged | reconnect => simp [onCmd, Deafened, MsgPhase.deaf, Loop.isControl]
      | wakeUp => simp [onCmd, Deafened, hp, MsgPhase.deaf, Loop.isControl]
    · exact (deafened_onHeartbeat m).symm
  case draining disconnect =>
    split at h <;> cases h
    · next c => cases c <;> simp [Overlooks, hp, onDrain, Deafened, MsgPhase.deaf, Loop.isControl]
    · cases disconnect with
      | true => simp [Overlooks, hp, Deafened, MsgPhase.deaf]
      | false =>
        simp only [Overlooks, hp]
        exact (deafened_pump m).symm

end MsgLoop

namespace Loop

variable {snow : Snow} {pc : Postcard} {cfg : WsClientConfig} {now : ℕ} {l : Loop snow}
  {i : Input} {r : Loop snow × List Effect}

theorem step_cancelled_of_receives (hp : l.phase.receives) :
    l.step pc cfg now .cancelled = some (l.released, []) := by
  cases hl : l.phase <;> rw [hl] at hp <;> cases hp <;> simp only [step, hl, waitFor, released]
  rfl

/-- A step of a cancelled loop that takes no notice: it dials, begins the Noise handshake, hands the
authentication response on, or begins to send or to close. -/
def Overlooks (pc : Postcard) (cfg : WsClientConfig) (l : Loop snow) (i : Input) : Prop :=
  match l.phase, i with
  | .backoff _ _, .elapsed => True
  | .readUrl, .url (some _) =>
    ∃ delay, cfg.backoff.nextDelay l.reconnectAttempt = some delay ∧ delay.nanos = 0
  | .noiseKeypair _, .keypair kp => ∃ x, noiseStart snow cfg.noiseServerKey kp = .ok x
  | .authAwait _ noise acc _, .next (some (.ok (.binary data))) => ∃ noise' acc' f,
    receive pc noise acc data cfg.maxPayloadBytes = .ok (noise', acc', some f) ∧ f.id = 1
  | .online _ m, i => m.Overlooks pc i
  | _, _ => False

/-- Between attempts only a dial overlooks the cancellation. -/
theorem Rested.overlooks (hr : Rested cfg now l i r) : l.Overlooks pc cfg i ↔ r.1.phase.deaf := by
  cases hr with
  | flag b hl => cases b <;> simp [Overlooks, hl, goto, Phase.deaf]
  | endpoint u hl =>
    rcases l.onUrl_cases cfg now u with
      ⟨rfl, hu⟩ | ⟨url, rfl, ⟨hd, hu⟩ | ⟨d, hd, ⟨hpos, hu⟩ | ⟨hz, hu⟩⟩⟩ <;> rw [hu]
    · simp [Overlooks, hl, goto, Phase.deaf]
    · simp [Overlooks, hl, goto, Phase.deaf, hd]
    · simp [Overlooks, hl, goto, Phase.deaf, hd, hpos.ne']
    · simp [Overlooks, hl, goto, Phase.deaf, hd, hz]
  | idle hp =>
    cases hl : l.phase <;> rw [hl] at hp <;> cases hp <;> simp [Overlooks, hl, Phase.deaf]
  | woken hp =>
    rw [woken_phase]
    cases hl : l.phase <;> rw [hl] at hp <;> cases hp <;> simp [Overlooks, hl, Phase.deaf]
  | released hp =>
    have hn : ¬ l.released.phase.deaf := by
      rcases l.released_phase with hn | ⟨hn, -⟩ <;> simp [hn, Phase.deaf]
    cases hl : l.phase <;> rw [hl] at hp <;> cases hp <;> simp [Overlooks, hl, hn]
  | elapsed hl => simp [Overlooks, hl, dial, goto, Phase.deaf]
  | disconnected hl => simp [Overlooks, hl, goto, Phase.deaf]
  | auto b hl => cases b <;> simp [Overlooks, hl, goto, Phase.deaf]

theorem step_overlooks (hd : ¬ l.phase.deaf) (h : l.step pc cfg now i = some r) :
    l.Overlooks pc cfg i ↔ r.1.phase.deaf := by
  rcases step_cases h with ⟨ha, -⟩ | hr | ⟨url, m, s, hl, hs, -, hr⟩
  · -- only two points of an attempt are not deaf
    cases hl : l.phase <;> rw [hl] at ha hd <;>
      simp only [Phase.attempting, Bool.false_eq_true] at ha <;>
      simp only [Phase.deaf, not_true_eq_false] at hd <;> simp only [step, hl] at h
    case noiseKeypair url =>
      split at h
      · split at h <;> next hn => cases h; simp [Overlooks, hl, hn, retry, goto, Phase.deaf]
      · cases h
    case authAwait url noise acc d =>
      split at h <;> cases h
      · next msg =>
        unfold onAuthItem
        split
        · next data =>
          split
          · next hrec => simp [Overlooks, hl, hrec, authFailed, fail, retry, Phase.deaf]
          · next hrec => simp [Overlooks, hl, hrec, goto, Phase.deaf]
          · next f hrec =>
            split <;> next hid =>
              simp [Overlooks, hl, hrec, hid, authFailed, fail, retry, goto, Phase.deaf]
        · next hne =>
          have hno : ¬ l.Overlooks pc cfg (.next msg) := by
            simp only [Overlooks, hl]
            split <;> simp_all
          simp [hno, authFailed, fail, retry, Phase.deaf]
      · simp [Overlooks, hl, authFailed, fail, retry, Phase.deaf]
  · exact hr.overlooks
  · have hm : ¬ m.phase.deaf := by simpa [hl, Phase.deaf] using hd
    have hmsg := MsgLoop.step_overlooks hm hs
    simp only [Overlooks, hl]
    rw [hmsg]
    rcases hr with ⟨hn, hr⟩ | ⟨m', hn, hr⟩ <;>
      simp [hr, hn, MsgLoop.Deafened, goto, Phase.deaf]

/-- `Online` is published only after a call of the auth handler. -/
theorem deaf_of_online (h : l.step pc cfg now i = some r) (ho : .publish .online ∈ r.2) :
    l.phase.deaf := by
  rcases step_emits h _ ho with ⟨url, noise, hl, -⟩ | ⟨url, noise, hl, -⟩ <;> rw [hl] <;> rfl

/-- Where the loop is deaf it goes on only with what comes from outside. -/
theorem step_deaf (hd : l.phase.deaf) (hi : ¬ i.fromOutside) : l.step pc cfg now i = none := by
  cases hl : l.phase <;> rw [hl] at hd <;> simp only [Phase.deaf, Bool.false_eq_true] at hd
  case online url m =>
    have hm : m.step pc cfg now i = none := by
      cases hp : m.phase <;> rw [hp] at hd <;> cases hd <;> simp only [MsgLoop.step, hp] <;>
        split <;> first | rfl | exact absurd rfl hi
    simp only [step, hl, hm, Option.map_none]
  all_goals
    simp only [step, hl]
    split <;> first | rfl | exact absurd rfl hi

end Loop

namespace WsClient

variable {snow : Snow} {pc : Postcard} {cfg : WsClientConfig} {parses : Text → Bool}
  {w w' : WsClient snow} {e : Event} {es : List Event} {tr o : List Output} {url : Text}

/-- The loop can return by itself. -/
def CanReturn (pc : Postcard) (cfg : WsClientConfig) (parses : Text → Bool) (w : WsClient snow) :
    Prop :=
  ∃ es n tr, (∀ e ∈ es, e.isLocal) ∧ (machine pc cfg parses snow).run w es = some (n, tr) ∧
    ¬ n.loop.alive

theorem canReturn_of_not_alive (h : ¬ w.loop.alive) : CanReturn pc cfg parses w :=
  ⟨[], w, [], by simp, rfl, h⟩

theorem CanReturn.cons (hw : CanReturn pc cfg parses w') (he : e.isLocal)
    (h : w.step pc cfg parses e = some (w', o)) : CanReturn pc cfg parses w := by
  obtain ⟨es, n, tr, hes, hrun, hn⟩ := hw
  refine ⟨e :: es, n, o ++ tr, ?_, Mealy.run_cons.mpr ⟨w', o, tr, h, hrun, rfl⟩, hn⟩
  intro x hx
  rcases List.mem_cons.mp hx with rfl | hx
  · exact he
  · exact hes x hx

/-- A step of the loop on the way to its end, which leaves the cancellation as it is. -/
theorem canReturn_step {i : Input} {r : Loop snow × List Effect} (ho : w.offers i)
    (hi : ¬ i.fromOutside) (hr : w.loop.step pc cfg w.now i = some r)
    (h : ∀ w' : WsClient snow, w'.loop = r.1 → w'.cancelled = w.cancelled →
      CanReturn pc cfg parses w') : CanReturn pc cfg parses w := by
  obtain ⟨q, hq, -⟩ := w.resume_eq i r.1
  obtain ⟨q', rs, p, hw, -⟩ := reactAll_eq cfg (w.resume i r.1) r.2
  have hw' : CanReturn pc cfg parses (reactAll cfg (w.resume i r.1) r.2).1 := by
    apply h
    · rw [hw, resume]
    · rw [hw, hq]
  have hs : w.step pc cfg parses (.loop i) =
      some ((reactAll cfg (w.resume i r.1) r.2).1,
        .loop (.resumed i) :: (reactAll cfg (w.resume i r.1) r.2).2) :=
    stepLoop_eq_some.mpr ⟨ho, r, hr, rfl, rfl⟩
  exact hw'.cons (by simpa [Event.isLocal] using hi) hs

section Paths

variable (hc : w.cancelled)

include hc

theorem canReturn_top (hp : w.loop.phase = .top) : CanReturn pc cfg parses w := by
  refine canReturn_step (i := .cancelFlag true) (r := (w.loop.goto .stopped, [])) ?_ ?_ ?_ ?_
  · simpa [offers] using hc
  · simp [Input.fromOutside]
  · simp [Loop.step, hp]
  · intro w' hl _
    apply canReturn_of_not_alive
    rw [hl]
    simp [Loop.alive, Loop.goto]

/-- The waits that a cancellation ends. -/
theorem canReturn_receives (hp : w.loop.phase.receives) : CanReturn pc cfg parses w := by
  refine canReturn_step (i := .cancelled) hc (by simp [Input.fromOutside])
    (Loop.step_cancelled_of_receives hp) ?_
  intro w' hl hc'
  rcases w.loop.released_phase with hn | ⟨hn, -⟩
  · apply canReturn_of_not_alive
    simp [hl, Loop.alive, hn]
  · exact canReturn_top (hc'.trans hc) (by rw [hl]; exact hn)

theorem canReturn_checkAuto (hp : w.loop.phase = .checkAuto) : CanReturn pc cfg parses w := by
  cases ha : w.autoReconnect with
  | true =>
    refine canReturn_step (i := .autoReconnect true) (by simp [offers, ha])
      (by simp [Input.fromOutside]) (by simp only [Loop.step, hp]; rfl) ?_
    intro w' hl hc'
    exact canReturn_top (hc'.trans hc) (by rw [hl])
  | false =>
    refine canReturn_step (i := .autoReconnect false) (by simp [offers, ha])
      (by simp [Input.fromOutside]) (by simp only [Loop.step, hp]; rfl) ?_
    intro w' hl hc'
    exact canReturn_receives (hc'.trans hc) (by rw [hl]; rfl)

theorem canReturn_offline (hp : w.loop.phase = .offline) : CanReturn pc cfg parses w := by
  refine canReturn_step (i := .proceed) rfl (by simp [Input.fromOutside])
    (by simp only [Loop.step, hp]; rfl) ?_
  intro w' hl hc'
  exact canReturn_checkAuto (hc'.trans hc) (by rw [hl]; rfl)

theorem canReturn_select {m : MsgLoop snow} (hp : w.loop.phase = .online url m)
    (hm : m.phase = .select) : CanReturn pc cfg parses w := by
  refine canReturn_step (i := .cancelled) (r := (w.loop.goto .offline, [])) hc
    (by simp [Input.fromOutside]) ?_ ?_
  · simp only [Loop.step, hp, MsgLoop.step, hm, Option.map_some]
  · intro w' hl hc'
    exact canReturn_offline (hc'.trans hc) (by rw [hl]; rfl)

/-- The timeout of the authentication response ends the attempt. -/
theorem canReturn_authAwait {noise : NoiseSession snow} {acc : FrameAccumulator} {d : ℕ}
    (hp : w.loop.phase = .authAwait url noise acc d) : CanReturn pc cfg parses w := by
  have hw : CanReturn pc cfg parses { w with now := w.now + d } := by
    refine canReturn_step (i := .elapsed) (r := w.loop.authFailed .connectionClosed) ?_ ?_ ?_ ?_
    · simp [offers, Loop.deadline, hp, Phase.isBackoff]
    · simp [Input.fromOutside]
    · simp [Loop.step, hp]
    · intro w' hl hc'
      exact canReturn_top (hc'.trans hc) (by rw [hl]; rfl)
  exact hw.cons (e := .tick d) rfl rfl

/-- A cancelled loop that waits where it hears can return by itself. -/
theorem canReturn_of_suspended (hd : ¬ w.loop.phase.deaf) (hp : w.loop.phase.suspended) :
    CanReturn pc cfg parses w := by
  by_cases hr : w.loop.phase.receives
  · exact canReturn_receives hc hr
  · rw [Bool.not_eq_true] at hd hr
    rw [Phase.suspended, hd, hr, Bool.false_or, Bool.false_or] at hp
    unfold Phase.guarded at hp
    split at hp
    · next hl => exact canReturn_authAwait hc hl
    · next hl => exact canReturn_select hc hl (of_decide_eq_true hp)
    · cases hp

end Paths

/-- Where the loop is not suspended it goes on by itself. -/
theorem exists_step_of_not_suspended (ha : w.loop.alive) (hp : ¬ w.loop.phase.suspended) :
    ∃ i w' o, ¬ i.fromOutside ∧ w.step pc cfg parses (.loop i) = some (w', o) := by
  suffices h : ∃ i, ¬ i.fromOutside ∧ w.offers i ∧ (w.loop.step pc cfg w.now i).isSome by
    obtain ⟨i, hi, ho, hs⟩ := h
    obtain ⟨r, hr⟩ := Option.isSome_iff_exists.mp hs
    exact ⟨i, _, _, hi, stepLoop_eq_some.mpr ⟨ho, r, hr, rfl, rfl⟩⟩
  cases hl : w.loop.phase <;>
    simp only [hl, Phase.suspended, Phase.deaf, Phase.receives, Phase.guarded, Bool.or_true,
      Bool.or_false, not_true_eq_false] at hp
  case top => exact ⟨.cancelFlag w.cancelled, by simp [Input.fromOutside], by simp [offers],
    by simp [Loop.step, hl]⟩
  case readUrl => exact ⟨.url w.url, by simp [Input.fromOutside], by simp [offers],
    by simp [Loop.step, hl]⟩
  case noiseKeypair =>
    refine ⟨.keypair (.error []), by simp [Input.fromOutside], rfl, ?_⟩
    simp only [Loop.step, hl]
    split <;> rfl
  case online url m =>
    cases hm : m.phase <;> simp [hm, MsgPhase.deaf] at hp
    cases hq : w.queue with
    | nil => exact ⟨.noCmd, by simp [Input.fromOutside], by simp [offers, hq],
        by simp [Loop.step, hl, MsgLoop.step, hm]⟩
    | cons c q => exact ⟨.cmd c, by simp [Input.fromOutside], by simp [offers, hq],
        by simp [Loop.step, hl, MsgLoop.step, hm]⟩
  case offline => exact ⟨.proceed, by simp [Input.fromOutside], rfl, by simp [Loop.step, hl]⟩
  case checkAuto =>
    refine ⟨.autoReconnect w.autoReconnect, by simp [Input.fromOutside], by simp [offers], ?_⟩
    cases w.autoReconnect <;> simp [Loop.step, hl]
  case stopped | panicked => simp [Loop.alive, hl] at ha

/-- By itself a deaf loop does not move. -/
theorem step_deaf (hd : w.loop.phase.deaf) (he : e.isLocal)
    (h : w.step pc cfg parses e = some (w', o)) : w'.loop = w.loop := by
  rcases step_loop_cases h with ⟨hl, -⟩ | ⟨i, r, rfl, -, hr, -⟩
  · exact hl
  · have hi : ¬ i.fromOutside := by simpa [Event.isLocal] using he
    rw [Loop.step_deaf hd hi] at hr
    cases hr

theorem canReturn_iff (hc : w.cancelled) (hp : w.loop.phase.suspended) :
    CanReturn pc cfg parses w ↔ ¬ w.loop.phase.deaf := by
  constructor
  · rintro ⟨es, n, tr, hes, hrun, hn⟩ hd
    have hl : n.loop = w.loop := by
      refine (Mealy.run_induction (P := fun es _ n => (∀ e ∈ es, e.isLocal) → n.loop = w.loop)
        (fun _ => rfl) ?_ hrun) hes
      intro es tr m e m' o _ ih hs hes
      have hm : m.loop = w.loop := ih fun x hx => hes x (List.mem_append_left _ hx)
      exact (step_deaf (by rw [hm]; exact hd) (hes e (by simp)) hs).trans hm
    apply hn
    rw [hl]
    unfold Loop.alive
    split
    · next hph => rw [hph] at hd; cases hd
    · next hph => rw [hph] at hd; cases hd
    · rfl
  · intro hd
    exact canReturn_of_suspended hc hd hp

/-- The run does not hide the shutdown from the loop: `shutdown` is not called while the loop is
deaf, and afterwards the loop does not overlook it. -/
def Heeds (pc : Postcard) (cfg : WsClientConfig) (w : WsClient snow) : Event → Prop
  | .shutdown => ¬ w.loop.phase.deaf
  | .loop i => w.cancelled → ¬ w.loop.Overlooks pc cfg i
  | _ => True

theorem step_heeds (hw : w.cancelled → ¬ w.loop.phase.deaf)
    (h : w.step pc cfg parses e = some (w', o)) :
    Heeds pc cfg w e ↔ (w'.cancelled → ¬ w'.loop.phase.deaf) := by
  rcases step_loop_cases h with ⟨hl, -, hne⟩ | ⟨i, r, rfl, -, hr, hl, -⟩
  · rw [hl]
    by_cases he : e = .shutdown
    · subst he
      cases h
      exact ⟨fun hd _ => hd, fun hd => hd rfl⟩
    · rw [step_cancelled_eq h he]
      refine iff_of_true ?_ hw
      cases e with
      | loop i => exact absurd rfl (hne i)
      | shutdown => exact absurd rfl he
      | _ => trivial
  · rw [step_cancelled_eq h (by simp), hl]
    exact forall_congr' fun hc => not_congr (Loop.step_overlooks (hw hc) hr)

theorem not_online_of_not_deaf (hd : ¬ w.loop.phase.deaf)
    (h : w.step pc cfg parses e = some (w', o)) : .loop (.publish .online) ∉ o := by
  intro ho
  rw [← mem_loop?] at ho
  rcases step_loop_cases h with ⟨-, hout, -⟩ | ⟨i, r, -, -, hr, -, hout⟩ <;> rw [hout] at ho
  · cases ho
  · have hm : .publish .online ∈ r.2 := by simpa using ho
    exact hd (Loop.deaf_of_online hr hm)

/-- After `shutdown` the loop can return by itself wherever it waits and never publishes `Online`,
exactly if it is not deaf when it is shut down and does not overlook the shutdown afterwards. -/
theorem run_shutdown_iff (h : (machine pc cfg parses snow).run new es = some (w, tr)) :
    (∀ pre post, es = pre ++ post → ∀ n u, (machine pc cfg parses snow).run new pre = some (n, u) →
      n.cancelled → n.loop.phase.suspended → CanReturn pc cfg parses n) ∧
    (∀ pre e post, es = pre ++ e :: post → ∀ n n' u o,
      (machine pc cfg parses snow).run new pre = some (n, u) →
      n.step pc cfg parses e = some (n', o) → n.cancelled → .loop (.publish .online) ∉ o) ↔
    (machine pc cfg parses snow).Along (Heeds pc cfg) new es := by
  have halways := Mealy.run_always_iff (P := fun n => n.cancelled → ¬ n.loop.phase.deaf)
    (G := Heeds pc cfg) (by rintro ⟨⟩)
    (fun pre e post heq n u n' o _ hn hs => (step_heeds hn hs).symm) h
  rw [← halways]
  constructor
  · rintro ⟨hret, -⟩ pre post heq n u hn hc hd
    have hp : n.loop.phase.suspended := by
      rw [Phase.suspended, hd, Bool.true_or, Bool.true_or]
    exact (canReturn_iff hc hp).mp (hret pre post heq n u hn hc hp) hd
  · intro hfree
    constructor
    · intro pre post heq n u hn hc hp
      exact (canReturn_iff hc hp).mpr (hfree pre post heq n u hn hc)
    · intro pre e post heq n n' u o hn hs hc
      exact not_online_of_not_deaf (hfree pre (e :: post) heq n u hn hc) hs

/-- There is nothing to heed before the call. -/
theorem along_heeds (hes : .shutdown ∉ es) :
    (machine pc cfg parses snow).Along (Heeds pc cfg) new es := by
  rintro pre e post rfl m u hm
  have hc : m.cancelled = false := by
    refine Mealy.run_induction (P := fun is _ m => Event.shutdown ∉ is → m.cancelled = false)
      (fun _ => rfl) ?_ hm fun hn => hes (List.mem_append_left _ hn)
    intro is tr m e m' o _ ih hs hn
    rw [List.mem_append, List.mem_singleton, not_or] at hn
    rw [step_cancelled_eq hs (Ne.symm hn.2)]
    exact ih hn.1
  cases e with
  | shutdown => exact absurd (by simp) hes
  | loop i =>
    intro hc'
    rw [hc] at hc'
    cases hc'
  | _ => trivial

/-- A client that is shut down while `Online`, in the `select!` of the message loop. -/
def shuttingDown : List Event :=
  .setEndpoint "ws://a".toList :: (Loop.goingOnline "ws://a".toList).map (fun i => .loop i.2) ++
    [.shutdown]

theorem run_shutdown_iff_online : ∃ n u,
    (machine .wire .sample (fun _ => true) (Snow.ideal Ideal.genuine)).run new shuttingDown =
        some (n, u) ∧
      n.loop.phase.suspended ∧ CanReturn .wire .sample (fun _ => true) n := by
  let M := machine .wire .sample (fun _ => true) (Snow.ideal Ideal.genuine)
  have hrun : (M.run new shuttingDown.dropLast).any (fun x =>
      !x.1.loop.phase.deaf && x.1.loop.phase.suspended) = true := by
    decide +kernel
  obtain ⟨⟨m, v⟩, hm, hx⟩ := (Option.any_eq_true _ _).mp hrun
  simp only [Bool.and_eq_true, Bool.not_eq_true'] at hx
  obtain ⟨hd, hp⟩ := hx
  have h : M.run new shuttingDown = some ({ m with cancelled := true }, v ++ []) :=
    Mealy.run_concat.mpr ⟨m, v, [], hm, rfl, rfl⟩
  have hheeds : Heeds .wire .sample m .shutdown := fun hdeaf => by
    rw [hd] at hdeaf
    cases hdeaf
  have hG : M.Along (Heeds .wire .sample) new shuttingDown :=
    (along_heeds (by decide +kernel)).concat hm hheeds
  exact ⟨_, _, h, hp, ((run_shutdown_iff h).mpr hG).1 _ [] (List.append_nil _).symm _ _ h rfl hp⟩

/-- `shutdown` is called while the loop asks for the authentication payload, and `Online` is
published all the same. It is called while the loop awaits the second Noise message, and while it
sends a frame, and the loop can no longer return by itself. -/
theorem run_shutdown_overlooked :
    (∃ w tr, (machine .wire .sample (fun _ => true) (Snow.ideal Ideal.genuine)).run new
        (.setEndpoint "ws://a".toList ::
          (Loop.goingOnline "ws://a".toList).dropLast.map (fun i => .loop i.2) ++
            [.shutdown, .loop (.authPayload none)]) = some (w, tr) ∧
      .loop (.publish .online) ∈ tr) ∧
    (∃ w tr, (machine .wire .sample (fun _ => true) (Snow.ideal Ideal.genuine)).run new
        (.setEndpoint "ws://a".toList ::
          ((Loop.goingOnline "ws://a".toList).take 7).map (fun i => .loop i.2) ++ [.shutdown]) =
            some (w, tr) ∧
      w.cancelled ∧ w.loop.phase.suspended ∧ ¬ CanReturn .wire .sample (fun _ => true) w) ∧
    ∃ w tr, (machine .wire .sample (fun _ => true) (Snow.ideal Ideal.genuine)).run new
        (.setEndpoint "ws://a".toList ::
          (Loop.goingOnline "ws://a".toList).map (fun i => .loop i.2) ++
            [.sendEvent [5] .normal, .loop (.cmd (.send ⟨0, .event, [5]⟩ .normal)), .shutdown]) =
            some (w, tr) ∧
      w.cancelled ∧ w.loop.phase.suspended ∧ ¬ CanReturn .wire .sample (fun _ => true) w := by
  refine ⟨⟨_, _, (Option.some_get rfl).symm, by decide +kernel⟩, ?_, ?_⟩
  · refine ⟨_, _, (Option.some_get rfl).symm, rfl, rfl, ?_⟩
    intro hret
    exact (canReturn_iff rfl rfl).mp hret rfl
  · refine ⟨_, _, (Option.some_get rfl).symm, rfl, by decide +kernel, ?_⟩
    intro hret
    exact (canReturn_iff rfl (by decide +kernel)).mp hret (by decide +kernel)

end WsClient

end NotifiTransport

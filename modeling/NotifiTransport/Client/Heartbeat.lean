import NotifiTransport.Client.Calls
import NotifiTransport.Lib.Watchdog

/-! # The heartbeat of the client

The message loop is a watchdog on the packets of the server. It closes the socket only when it has
read none for the interval and the timeout together, and it sends a Ping only when it has read none
for the interval.
-/

namespace NotifiTransport

namespace MsgLoop

variable {snow : Snow} {pc : Postcard} {cfg : WsClientConfig} {now : ℕ} {m m' : MsgLoop snow}
  {i : Input} {r : Option (MsgLoop snow) × List Effect} {signs : List ℕ}

def watchdog (m : MsgLoop snow) : Watchdog := ⟨m.heartbeatDeadline, m.waitingForPong⟩

/-- The time, if the step reads a packet. -/
def sign (now : ℕ) : Input → List ℕ
  | .next (some (.ok (.binary _))) => [now]
  | _ => []

theorem le_of_mem_sign {t : ℕ} (h : t ∈ sign now i) : t ≤ now := by
  unfold sign at h
  split at h
  · exact (List.mem_singleton.mp h).le
  · cases h

/-- The timer goes with the signs of life so far. -/
def Guarded (cfg : WsClientConfig) (signs : List ℕ) (now : ℕ) (m : MsgLoop snow) : Prop :=
  match m.phase with
  | .pinging _ => Watchdog.Probing cfg.heartbeatInterval.nanos signs now
  | _ => m.watchdog.Sound cfg.heartbeatInterval.nanos cfg.heartbeatTimeout.nanos signs now

theorem guarded_of_sound (h : m.watchdog.Sound cfg.heartbeatInterval.nanos
    cfg.heartbeatTimeout.nanos signs now) (hp : ∀ rest, m.phase ≠ .pinging rest) :
    Guarded cfg signs now m := by
  unfold Guarded
  split
  · next rest hp' => exact absurd hp' (hp rest)
  · exact h

theorem Guarded.sound (h : Guarded cfg signs now m) (hp : ∀ rest, m.phase ≠ .pinging rest) :
    m.watchdog.Sound cfg.heartbeatInterval.nanos cfg.heartbeatTimeout.nanos signs now := by
  unfold Guarded at h
  split at h
  · next rest hp' => exact absurd hp' (hp rest)
  · exact h

theorem Guarded.later {now' : ℕ} (h : Guarded cfg signs now m) (hn : now ≤ now') :
    Guarded cfg signs now' m := by
  unfold Guarded at h ⊢
  split
  · next hp =>
    simp only [hp] at h
    exact h.later hn
  · next hp =>
    split at h
    · next hp' => exact absurd hp' (hp _)
    · exact h.later hn

/-- The same timer in another phase. -/
theorem Guarded.same (h : m.watchdog.Sound cfg.heartbeatInterval.nanos cfg.heartbeatTimeout.nanos
    signs now) (hw : m'.watchdog = m.watchdog) (hp : ∀ rest, m'.phase ≠ .pinging rest) :
    Guarded cfg signs now m' :=
  guarded_of_sound (hw ▸ h) hp

theorem guarded_pump (h : m.watchdog.Sound cfg.heartbeatInterval.nanos cfg.heartbeatTimeout.nanos
    signs now) (hr : (m.pump pc).1 = some m') : Guarded cfg signs now m' := by
  rcases m.pump_cases pc with
    ⟨scheduler, -, hm⟩ | hm | ⟨f, scheduler, _, noise, chunks, -, -, -, hm⟩ <;>
      rw [hm] at hr <;> cases hr
  · exact .same h rfl (by rintro _ ⟨⟩)
  · cases chunks <;> exact .same h rfl (by rintro _ ⟨⟩)

theorem guarded_pingSent (h : Watchdog.Probing cfg.heartbeatInterval.nanos signs now) :
    Guarded cfg signs now (m.pingSent cfg now) :=
  guarded_of_sound (h.sound cfg.heartbeatTimeout.nanos) (by rintro _ ⟨⟩)

theorem guarded_pingChunks (h : Watchdog.Probing cfg.heartbeatInterval.nanos signs now)
    (cs : List Bytes) : Guarded cfg signs now (m.pingChunks cfg now cs).1 := by
  cases cs with
  | nil => exact guarded_pingSent h
  | cons c cs => exact h

theorem guarded_onHeartbeat (h : m.watchdog.Sound cfg.heartbeatInterval.nanos
    cfg.heartbeatTimeout.nanos signs now) (hd : m.heartbeatDeadline ≤ now)
    (hr : (m.onHeartbeat pc cfg now).1 = some m') : Guarded cfg signs now m' := by
  cases hw : m.waitingForPong with
  | true =>
    rw [onHeartbeat, if_pos hw] at hr
    cases hr
    exact .same h rfl (by rintro _ ⟨⟩)
  | false =>
    have hprobe := h.fire hw hd
    rcases m.onHeartbeat_cases pc cfg now with
      ho | ho | ⟨_, noise, _, -, -, ⟨_, -, ho⟩ | ⟨chunks, -, ho⟩⟩ <;> rw [ho] at hr <;> cases hr
    · exact .same h rfl (by rintro _ ⟨⟩)
    · exact guarded_pingSent hprobe
    · exact guarded_pingSent hprobe
    · exact guarded_pingChunks hprobe chunks

/-- The socket is closed if there was no answer to a Ping. -/
theorem close_mem_onHeartbeat (m : MsgLoop snow) (pc : Postcard) (cfg : WsClientConfig) (now : ℕ) :
    .close ∈ (m.onHeartbeat pc cfg now).2 ↔ m.waitingForPong = true := by
  cases hw : m.waitingForPong with
  | true => simp [onHeartbeat, hw]
  | false =>
    rw [onHeartbeat, if_neg (by simp [hw])]
    split
    · simp
    · split
      · simp
      · next chunks _ => cases chunks <;> simp [pingChunks]

/-- A step, when the timer does not fire early. -/
theorem step_guarded (hm : Guarded cfg signs now m) (h : m.step pc cfg now i = some r)
    (hd : i = .elapsed → m.heartbeatDeadline ≤ now) (hr : r.1 = some m') :
    Guarded cfg (signs ++ sign now i) now m' := by
  cases hp : m.phase <;> simp only [step, hp] at h
  case select =>
    have hs := hm.sound (by simp [hp])
    split at h <;> cases h
    · cases hr
    · unfold onPacket at hr
      dsimp only at hr
      split at hr <;> cases hr
      exact guarded_of_sound (Watchdog.sound_rearm _ _ hs.le) (by simp [hp])
    · cases hr
    · next c =>
      rw [show sign now (.cmd c) = [] from rfl, List.append_nil]
      cases c with
      | send f p => exact guarded_pump (m := { m with scheduler := m.scheduler.enqueue f p }) hs hr
      | endpointChanged | reconnect =>
        cases hr
        exact .same hs rfl (by rintro _ ⟨⟩)
      | wakeUp =>
        cases hr
        exact hm
    · rw [show sign now .elapsed = [] from rfl, List.append_nil]
      exact guarded_onHeartbeat hs (hd rfl) hr
  case writing f rest =>
    have hs := hm.sound (by simp [hp])
    split at h <;> cases h <;> cases hr
    rw [show sign now (.sent (.ok ())) = [] from rfl, List.append_nil]
    cases rest <;> exact .same hs rfl (by rintro _ ⟨⟩)
  case draining disconnect =>
    have hs := hm.sound (by simp [hp])
    split at h <;> cases h
    · next c =>
      rw [show sign now (.cmd c) = [] from rfl, List.append_nil]
      cases c <;> cases hr <;> exact .same hs rfl (by rintro _ ⟨⟩)
    · rw [show sign now .noCmd = [] from rfl, List.append_nil]
      cases disconnect
      · exact guarded_pump hs hr
      · cases hr
        exact .same hs rfl (by rintro _ ⟨⟩)
  case drainClosing =>
    have hs := hm.sound (by simp [hp])
    split at h <;> cases h
    cases hr
    rw [show sign now .closed = [] from rfl, List.append_nil]
    exact .same hs rfl (by rintro _ ⟨⟩)
  case pinging rest =>
    simp only [Guarded, hp] at hm
    split at h <;> cases h <;> cases hr
    · rw [show sign now (.sent (.ok ())) = [] from rfl, List.append_nil]
      exact guarded_pingChunks hm rest
    · next e =>
      rw [show sign now (.sent (.error e)) = [] from rfl, List.append_nil]
      exact guarded_pingSent hm
  case closing =>
    split at h <;> cases h
    cases hr

end MsgLoop

namespace WsClient

variable {snow : Snow} {pc : Postcard} {cfg : WsClientConfig} {parses : Text → Bool}
  {w w' : WsClient snow} {e : Event} {es : List Event} {o : List Output} {times : List ℕ}

/-- The message loop runs. -/
def online (w : WsClient snow) : Bool :=
  match w.loop.phase with
  | .online _ _ => true
  | _ => false

/-- The times at which a message loop begins or reads a packet. -/
def signs (w : WsClient snow) (e : Event) (w' : WsClient snow) : List ℕ :=
  if w.online then e.loop?.elim [] (MsgLoop.sign w.now)
  else if w'.online then [w.now] else []

/-- All signs are past, and the timer of the message loop goes with them. -/
def Guarded (cfg : WsClientConfig) (times : List ℕ) (w : WsClient snow) : Prop :=
  (∀ t ∈ times, t ≤ w.now) ∧ ∀ url m, w.loop.phase = .online url m → m.Guarded cfg times w.now

theorem online_iff : w.online ↔ ∃ url m, w.loop.phase = .online url m := by
  unfold online
  split
  · next url m hp => simp [hp]
  · next hn => simpa using fun url m hp => absurd hp (hn url m)

theorem stepRequest_now {k : ℕ} {r : Request} (h : w.stepRequest cfg k r e = some (w', o)) :
    w'.now = w.now := by
  unfold stepRequest at h
  repeat' split at h
  all_goals cases h
  all_goals first
    | rfl
    | obtain ⟨q, p, hw⟩ := w.removePending_eq r.id
      simp only [register, setStage, modify, hw]

theorem stepLoop_now {i : Input} (h : w.stepLoop pc cfg i = some (w', o)) : w'.now = w.now := by
  obtain ⟨-, r, -, rfl, -⟩ := stepLoop_eq_some.mp h
  obtain ⟨q, hq, -⟩ := w.resume_eq i r.1
  obtain ⟨q', rs, p, hw, -⟩ := reactAll_eq cfg (w.resume i r.1) r.2
  rw [hw, hq]

/-- Time does not go back. -/
theorem step_now (h : w.step pc cfg parses e = some (w', o)) : w.now ≤ w'.now := by
  cases e <;> simp only [step] at h
  case loop i => exact (stepLoop_now h).ge
  case register | permit | enqueue | refuse | resolve | expire | remove | drop =>
    split at h
    · exact (stepRequest_now h).ge
    · cases h
  case notify k =>
    split at h <;> cases h
    next c _ =>
    obtain ⟨q, hq, -⟩ := trySend_eq cfg { w with calls := w.calls.eraseIdx k } c
    rw [hq]
  case tick d =>
    cases h
    exact Nat.le_add_right _ _
  case reconnect | wake | sendEvent =>
    cases h
    unfold trySend
    split <;> exact le_rfl
  case setEndpoint =>
    cases h
    unfold setEndpoint
    split <;> exact le_rfl
  all_goals
    cases h
    exact le_rfl

theorem step_guarded (hw : Guarded cfg times w) (h : w.step pc cfg parses e = some (w', o)) :
    Guarded cfg (times ++ w.signs e w') w' := by
  obtain ⟨hle, hm⟩ := hw
  have hnow := step_now h
  rcases step_loop_cases h with ⟨hl, -, hne⟩ | ⟨i, r, rfl, ho, hr, hl, -⟩
  · -- a step of the callers
    have hsigns : w.signs e w' = [] := by
      have he : e.loop? = none := by
        cases e <;> first | rfl | exact absurd rfl (hne _)
      have hon : w'.online = w.online := by rw [online, online, hl]
      rw [signs, he, hon]
      cases w.online <;> rfl
    rw [hsigns, List.append_nil]
    refine ⟨fun t ht => (hle t ht).trans hnow, fun url m hp => ?_⟩
    exact (hm url m (hl ▸ hp)).later hnow
  · have hloop : w.stepLoop pc cfg i = some (w', o) := h
    have hsame := stepLoop_now hloop
    rw [Guarded, hsame]
    by_cases hon : w.online
    · obtain ⟨url, m, hp⟩ := online_iff.mp hon
      rw [signs, if_pos hon]
      simp only [Loop.step, hp] at hr
      obtain ⟨⟨t, _⟩, hs, rfl⟩ := Option.map_eq_some_iff.mp hr
      have hd : i = .elapsed → m.heartbeatDeadline ≤ w.now := by
        rintro rfl
        simpa [offers, Loop.deadline, hp, Phase.isBackoff] using ho
      constructor
      · intro t ht
        rcases List.mem_append.mp ht with ht | ht
        · exact hle t ht
        · exact MsgLoop.le_of_mem_sign ht
      · intro url' m' hp'
        rw [hl] at hp'
        rcases t with _ | m'' <;> cases hp'
        exact MsgLoop.step_guarded (hm url m hp) hs hd rfl
    · by_cases hon' : w'.online
      · rw [signs, if_neg hon, if_pos hon']
        have hsound := Watchdog.sound_rearm cfg.heartbeatInterval.nanos
          cfg.heartbeatTimeout.nanos hle
        refine ⟨hsound.le, fun url m hp => ?_⟩
        rw [hl] at hp
        rcases Loop.step_toOnline hr hp with ⟨m₀, s, hm₀, -⟩ | ⟨noise, rfl⟩
        · exact absurd (online_iff.mpr ⟨url, m₀, hm₀⟩) hon
        · cases hp
          exact MsgLoop.guarded_of_sound hsound (by rintro _ ⟨⟩)
      · rw [signs, if_neg hon, if_neg hon', List.append_nil]
        exact ⟨hle, fun url m hp => absurd (online_iff.mpr ⟨url, m, hp⟩) hon'⟩

theorem run_guarded
    (h : ((machine pc cfg parses snow).watch signs).run new es = some (w, times)) :
    Guarded cfg times w := by
  refine Mealy.run_induction (P := fun _ times w => Guarded cfg times w)
    ⟨by simp, fun _ _ hp => by cases hp⟩ ?_ h
  rintro es times w e w' _ - hw hs
  obtain ⟨o, hst, rfl⟩ := Mealy.step_watch.mp hs
  exact step_guarded hw hst

/-- When the timer of the message loop fires, the socket is closed exactly if a Ping is out. Then no
packet has been read for the interval and the timeout, and otherwise none for the interval. The
timer is never set further ahead than the longer of the two. -/
theorem closed_only_in_silence {url : Text} {m : MsgLoop snow}
    (h : ((machine pc cfg parses snow).watch signs).run new es = some (w, times))
    (hp : w.loop.phase = .online url m) (hselect : m.phase = .select) :
    m.heartbeatDeadline ≤
        w.now + max cfg.heartbeatInterval.nanos cfg.heartbeatTimeout.nanos ∧
      ∀ w' o, w.step pc cfg parses (.loop .elapsed) = some (w', o) →
        (.loop .close ∈ o ↔ m.waitingForPong = true) ∧
        (.loop .close ∈ o → ∀ t ∈ times,
          t + cfg.heartbeatInterval.nanos + cfg.heartbeatTimeout.nanos ≤ w.now) ∧
        (.loop .close ∉ o → ∀ t ∈ times, t + cfg.heartbeatInterval.nanos ≤ w.now) := by
  have hsound := ((run_guarded h).2 url m hp).sound (by simp [hselect])
  refine ⟨hsound.due, ?_⟩
  intro w' o hs
  rcases step_loop_cases hs with ⟨-, -, hne⟩ | ⟨i, r, hi, ho, hr, -, hout⟩
  · exact absurd rfl (hne _)
  · cases hi
    have hd : m.heartbeatDeadline ≤ w.now := by
      simpa [offers, Loop.deadline, hp, Phase.isBackoff] using ho
    have hclose : .loop .close ∈ o ↔ m.waitingForPong = true := by
      rw [← mem_loop?, hout]
      simp only [Loop.step, hp, MsgLoop.step, hselect, Option.map_some, Option.some.injEq] at hr
      subst hr
      simpa using m.close_mem_onHeartbeat pc cfg w.now
    refine ⟨hclose, ?_, ?_⟩
    · intro hc
      exact hsound.expire (hclose.mp hc) hd
    · intro hc
      exact hsound.fire (Bool.not_eq_true _ ▸ mt hclose.mpr hc) hd

/-- The client goes online and then hears nothing, neither before nor after its Ping. -/
def silence (url : Text) : List Event :=
  .setEndpoint url :: (Loop.goingOnline url).map (fun i => .loop i.2) ++
    [.tick WsClientConfig.sample.heartbeatInterval.nanos, .loop .elapsed, .loop (.sent (.ok ())),
      .tick WsClientConfig.sample.heartbeatTimeout.nanos]

theorem closed_only_in_silence_noPong : ∃ w times url m w' o,
    ((machine .wire .sample (fun _ => true) (Snow.ideal Ideal.genuine)).watch signs).run new
        (silence "ws://a".toList) = some (w, times) ∧
      w.loop.phase = .online url m ∧ times = [0] ∧
      w.step .wire .sample (fun _ => true) (.loop .elapsed) = some (w', o) ∧ .loop .close ∈ o ∧
      ∀ t ∈ times, t + WsClientConfig.sample.heartbeatInterval.nanos +
        WsClientConfig.sample.heartbeatTimeout.nanos ≤ w.now := by
  have hrun : (((machine .wire .sample (fun _ => true) (Snow.ideal Ideal.genuine)).watch signs).run
      new (silence "ws://a".toList)).any (fun x => x.2 = [0] ∧ x.1.loop.idle ∧
        (x.1.step .wire .sample (fun _ => true) (.loop .elapsed)).any
          (fun y => .loop .close ∈ y.2)) = true := by
    decide +kernel
  obtain ⟨⟨w, times⟩, h, hx⟩ := (Option.any_eq_true _ _).mp hrun
  obtain ⟨htimes, hidle, hstep⟩ := of_decide_eq_true hx
  obtain ⟨url, m, hp, hselect, -⟩ := Loop.idle_iff.mp hidle
  obtain ⟨⟨w', o⟩, hs, hc⟩ := (Option.any_eq_true _ _).mp hstep
  obtain ⟨-, hall⟩ := closed_only_in_silence h hp hselect
  have hclose : .loop .close ∈ o := of_decide_eq_true hc
  exact ⟨w, times, url, m, w', o, h, hp, htimes, hs, hclose, (hall w' o hs).2.1 hclose⟩

end WsClient

end NotifiTransport

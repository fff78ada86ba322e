import NotifiTransport.Client.Online
import NotifiTransport.Client.Endpoint
import NotifiTransport.Client.Shared

/-! # Commands from before a connection attempt

The channel is not read between the dial and the end of the authentication. So a command that
is on its way when an attempt dials ends the connection or the terminal wait which the attempt
leads to; without such a command, and without a new call, nothing does.
-/

namespace NotifiTransport

/-- An `EndpointChanged` or `Reconnect` that is taken here ends the open connection, or the wait
in `Unauthorized` or `VersionMismatch`. -/
def Phase.heeds {snow : Snow} : Phase snow → Bool
  | .online _ _ | .terminal _ | .versionRejected _ => true
  | _ => false

namespace Loop

variable {snow : Snow} {pc : Postcard} {cfg : WsClientConfig} {now : ℕ} {l : Loop snow}
  {r : Loop snow × List Effect} {c : ClientCmd}

/-- The loop closes the open socket or leaves the wait. -/
theorem step_heeds (hp : l.phase.heeds) (hc : isControl c)
    (h : l.step pc cfg now (.cmd c) = some r) :
    (∃ url m, l.phase = .online url m ∧ r.2 = [.close]) ∨ r.1.phase = .top := by
  cases hl : l.phase <;> rw [hl] at hp <;> cases hp <;> simp only [step, hl] at h
  case online url m =>
    obtain ⟨s, hs, rfl⟩ := Option.map_eq_some_iff.mp h
    obtain ⟨m', rfl, -⟩ := MsgLoop.step_control hc hs
    exact Or.inl ⟨url, m, rfl, rfl⟩
  case versionRejected | terminal =>
    cases h
    apply Or.inr
    cases c <;> first | rfl | cases hc

end Loop

namespace WsClient

variable {snow : Snow} {pc : Postcard} {cfg : WsClientConfig} {parses : Text → Bool}
  {w w' : WsClient snow} {es : List Event} {tr o : List Output} {e : Event}

/-- A command ends the connection or the wait. -/
def Disturbs (w : WsClient snow) (e : Event) : Prop :=
  w.loop.phase.heeds ∧ ∃ c, Loop.isControl c ∧ e = .loop (.cmd c)

/-- No command that could do so is in the channel or still to be sent. -/
def Settled (w : WsClient snow) : Prop := w.calls = [] ∧ ∀ c ∈ w.queue, ¬ Loop.isControl c

theorem Settled.step (hw : Settled w) (he : ¬ e.isControlCall)
    (h : w.step pc cfg parses e = some (w', o)) : Settled w' ∧ ¬ Disturbs w e := by
  obtain ⟨hcalls, hqueue⟩ := hw
  rcases step_shared h with ⟨i, rfl, hs⟩ | ⟨k, c, -, hk, -⟩ | ⟨hctl, -⟩ | ⟨-, hne, hquiet⟩
  · obtain ⟨ho, -, -, hc, sent, hq, hsent⟩ := stepLoop_shared hs
    constructor
    · refine ⟨hc.trans hcalls, fun c hm => ?_⟩
      rw [hq] at hm
      rcases List.mem_append.mp hm with hm | hm
      · obtain ⟨q, ht, rfl | ⟨-, -, rfl⟩⟩ := w.take_eq i <;> rw [ht] at hm
        · exact hqueue c hm
        · exact hqueue c (List.mem_of_mem_tail hm)
      · exact hsent c hm
    · rintro ⟨-, c, hc, ⟨⟩⟩
      have hhead : w.queue.head? = some c := by simpa [offers] using ho
      exact hqueue c (List.mem_of_mem_head? hhead) hc
  · rw [hcalls] at hk
    cases hk
  · exact absurd hctl he
  · constructor
    · obtain ⟨sent, hq, hsent⟩ := hquiet.queue
      refine ⟨hquiet.calls.trans hcalls, fun c hm => ?_⟩
      rw [hq] at hm
      exact (List.mem_append.mp hm).elim (hqueue c) (hsent c)
    · rintro ⟨-, c, -, rfl⟩
      exact hne (.cmd c) rfl

theorem Settled.run (hw : Settled w) (he : ∀ e ∈ es, ¬ e.isControlCall)
    (h : (machine pc cfg parses snow).run w es = some (w', tr)) :
    (machine pc cfg parses snow).Along (fun m e => ¬ Disturbs m e) w es := by
  rintro pre e post rfl m u hr
  have hm : Settled m := by
    refine Mealy.run_induction_along (P := fun _ _ m => Settled m) hw ?_ hr
      (G := fun _ e => ¬ e.isControlCall) ?_
    · intro es tr m e m' o _ hm hq hs
      exact (hm.step hq hs).1
    · rintro pre' e' post' rfl n v -
      exact he e' (by simp)
  obtain ⟨m', o, _, hs, -, -⟩ := Mealy.run_at h hr
  exact (hm.step (he e (by simp)) hs).2

/-- Whatever happens next, an attempt that dials now is not disturbed before the next call. -/
def Undisturbed (pc : Postcard) (cfg : WsClientConfig) (parses : Text → Bool)
    (w : WsClient snow) : Prop :=
  ∀ es, (∀ e ∈ es, ¬ e.isControlCall) → ∀ w' tr,
    (machine pc cfg parses snow).run w es = some (w', tr) →
      (machine pc cfg parses snow).Along (fun m e => ¬ Disturbs m e) w es

/-- Calls in progress only send commands that are meant for the connection. -/
theorem step_calls (hw : ∀ c ∈ w.calls, Loop.isControl c)
    (h : w.step pc cfg parses e = some (w', o)) : ∀ c ∈ w'.calls, Loop.isControl c := by
  rcases step_shared h with ⟨i, -, hl⟩ | ⟨k, c, -, -, rfl⟩ | ⟨-, -, -, -, hc⟩ | ⟨-, -, hquiet⟩
  · obtain ⟨-, -, -, hc, -⟩ := stepLoop_shared hl
    rwa [hc]
  · obtain ⟨q, hq, -⟩ := trySend_eq cfg { w with calls := w.calls.eraseIdx k } c
    rw [hq]
    intro c hm
    exact hw c (List.mem_of_mem_eraseIdx hm)
  · intro c hm
    exact (hc c hm).elim (hw c) id
  · rwa [hquiet.calls]

theorem run_calls (h : (machine pc cfg parses snow).run new es = some (w, tr)) :
    ∀ c ∈ w.calls, Loop.isControl c :=
  Mealy.run_invariant (P := fun w => ∀ c ∈ w.calls, Loop.isControl c)
    (fun _ _ _ _ hw hs => step_calls hw hs) h (by rintro c ⟨⟩)

section Disturbance

variable {url : Text}

/-- The server rejects the protocol version. -/
def rejecting : List Event :=
  [.loop (.connected (.ok ())), .loop (.sent (.ok ())),
    .loop (.next (some (.ok (.text protocolRejected))))]

variable (pc cfg parses) in
theorem run_rejecting (hp : w.loop.phase = .connecting url) : ∃ w' tr,
    (machine pc cfg parses snow).run w rejecting = some (w', tr) ∧
      w'.loop.phase = .versionRejected url ∧ w'.queue = w.queue ∧ w'.calls = w.calls := by
  have hreply : versionReply (some (.ok (.text protocolRejected))) = .rejected "unknown".toList := by
    decide
  let i₃ := Input.next (some (.ok (.text protocolRejected)))
  let w₁ := w.resume (.connected (.ok ())) (w.loop.goto (.sendHello url))
  let w₂ := w₁.resume (.sent (.ok ())) (w.loop.goto (.awaitReply url))
  let w₃ := w₂.resume i₃ (w.loop.goto (.versionRejected url))
  have h₁ : ∃ o, w.step pc cfg parses (.loop (.connected (.ok ()))) = some (w₁, o) := by
    simp [step, stepLoop, offers, Loop.step, hp, reactAll, react, w₁]
  have h₂ : ∃ o, w₁.step pc cfg parses (.loop (.sent (.ok ()))) = some (w₂, o) := by
    simp [step, stepLoop, offers, Loop.step, Loop.goto, resume, reactAll, w₁, w₂]
  have h₃ : ∃ o, w₂.step pc cfg parses (.loop i₃) = some (w₃.clearPending, o) := by
    simp [step, stepLoop, offers, Loop.step, Loop.goto, hreply, Loop.onVersionReply, resume,
      reactAll, react, w₂, w₃, i₃]
  obtain ⟨o₁, h₁⟩ := h₁
  obtain ⟨o₂, h₂⟩ := h₂
  obtain ⟨o₃, h₃⟩ := h₃
  have hr₂ : (machine pc cfg parses snow).run w₁ rejecting.tail =
      some (w₃.clearPending, o₂ ++ (o₃ ++ [])) :=
    Mealy.run_cons.mpr ⟨w₂, o₂, _, h₂, Mealy.run_cons.mpr ⟨_, o₃, [], h₃, rfl, rfl⟩, rfl⟩
  exact ⟨w₃.clearPending, _, Mealy.run_cons.mpr ⟨w₁, o₁, _, h₁, hr₂, rfl⟩, rfl, rfl, rfl⟩

variable (pc cfg parses) in
/-- Commands that do not end the wait are taken one after the other. -/
theorem run_drain (hp : w.loop.phase = .versionRejected url) {pre post : List ClientCmd}
    (hq : w.queue = pre ++ post) (hpre : ∀ c ∈ pre, ¬ Loop.isControl c) : ∃ ready tr,
    (machine pc cfg parses snow).run w (pre.map fun c => .loop (.cmd c)) =
      some ({ w with queue := post, ready }, tr) := by
  induction pre generalizing w with
  | nil =>
    refine ⟨w.ready, [], ?_⟩
    rw [List.nil_append] at hq
    subst hq
    rfl
  | cons c pre ih =>
    let m := w.resume (.cmd c) w.loop
    have hs : w.step pc cfg parses (.loop (.cmd c)) =
        some (m, [.loop (.resumed (.cmd c))]) := by
      have hc : ¬ Loop.isControl c := hpre c List.mem_cons_self
      simp [step, stepLoop, offers, hq, Loop.step, hp, Loop.waitFor, hc, reactAll, m]
    have hm : m.queue = pre ++ post := by simp [m, resume, take, hq]
    obtain ⟨ready, tr, hr⟩ := ih (w := m) hp hm fun c hc => hpre c (List.mem_cons_of_mem _ hc)
    exact ⟨ready, _, Mealy.run_cons.mpr ⟨_, _, _, hs, hr, rfl⟩⟩

variable (pc cfg parses) in
/-- Requests that hold a slot of the channel give it back when their callers drop them. -/
theorem run_drop (w : WsClient snow) : ∃ es w', (∀ e ∈ es, ¬ e.isControlCall) ∧
    (machine pc cfg parses snow).run w es = some (w', []) ∧ w'.reserved = 0 ∧
    w'.loop = w.loop ∧ w'.queue = w.queue ∧ w'.calls = w.calls := by
  induction hn : w.reserved generalizing w with
  | zero => exact ⟨[], w, by simp, rfl, hn, rfl, rfl, rfl⟩
  | succ n ih =>
    have hpos : 0 < w.reserved := by omega
    obtain ⟨r, hr, hs⟩ := List.countP_pos_iff.mp hpos
    obtain ⟨i, hi, rfl⟩ := List.getElem_of_mem hr
    have hstage : w.requests[i].stage = .permitted := of_decide_eq_true hs
    have hstep : w.step pc cfg parses (.drop i) = some (w.setStage i .dropped, []) := by
      simp only [step, List.getElem?_eq_getElem hi, stepRequest, hstage]
    have hless : (w.setStage i .dropped).reserved = n := by
      obtain ⟨a, q, b, hl, rfl, hm⟩ :=
        List.exists_of_modify (fun r : Request => { r with stage := .dropped }) hi
      have hq : q.stage = .permitted := by simpa [hl] using hstage
      unfold reserved at hn ⊢
      rw [hl] at hn
      rw [setStage, modify, hm]
      simp [hq] at hn ⊢
      omega
    obtain ⟨es, w', he, hrun, h0, hl, hq, hc⟩ := ih (w.setStage i .dropped) hless
    refine ⟨.drop i :: es, w', ?_, Mealy.run_cons.mpr ⟨_, [], [], hstep, hrun, rfl⟩, h0, hl, hq, hc⟩
    exact List.forall_mem_cons.mpr ⟨by simp [Event.isControlCall], he⟩

/-- A command that heads the queue of a waiting loop is taken. -/
theorem Undisturbed.not_head {c : ClientCmd} {post : List ClientCmd}
    (hu : Undisturbed pc cfg parses w) (he : ∀ e ∈ es, ¬ e.isControlCall)
    (h : (machine pc cfg parses snow).run w es = some (w', tr))
    (hp : w'.loop.phase = .versionRejected url) (hq : w'.queue = c :: post) :
    ¬ Loop.isControl c := by
  intro hc
  have hs : ∃ w'' o, w'.step pc cfg parses (.loop (.cmd c)) = some (w'', o) := by
    simp [step, stepLoop, offers, hq, Loop.step, hp, Loop.waitFor]
  obtain ⟨w'', o, hs⟩ := hs
  have hquiet : ∀ e ∈ es ++ [Event.loop (.cmd c)], ¬ e.isControlCall := by
    intro e hm
    rcases List.mem_append.mp hm with hm | hm
    · exact he e hm
    · rw [List.mem_singleton.mp hm]
      simp [Event.isControlCall]
  have halong := hu _ hquiet _ _ (Mealy.run_concat.mpr ⟨w', tr, o, h, hs, rfl⟩)
  exact halong.last h ⟨by rw [hp]; rfl, c, hc, rfl⟩

end Disturbance

theorem quiet_drain (pre : List ClientCmd) :
    ∀ e ∈ pre.map fun c => Event.loop (.cmd c), ¬ e.isControlCall := by
  simp [Event.isControlCall]

theorem Undisturbed.settled {url : Text} (hb : 0 < cfg.bufferSize)
    (hu : Undisturbed pc cfg parses w) (hc : ∀ c ∈ w.calls, Loop.isControl c)
    (hp : w.loop.phase = .connecting url) : Settled w := by
  obtain ⟨w₁, tr₁, h₁, hp₁, hq₁, hc₁⟩ := run_rejecting pc cfg parses hp
  have hquiet₁ : ∀ e ∈ rejecting, ¬ e.isControlCall := by decide
  have hqueue : ∀ c ∈ w.queue, ¬ Loop.isControl c := by
    by_contra hex
    push Not at hex
    obtain ⟨c, hm, hctl⟩ := hex
    -- the first control command of the queue is taken after the commands before it
    obtain ⟨c, hfind⟩ := Option.isSome_iff_exists.mp
      (List.find?_isSome.mpr ⟨c, hm, hctl⟩ : (w.queue.find? Loop.isControl).isSome)
    obtain ⟨hctl, pre, post, hq, hpre⟩ := List.find?_eq_some_iff_append.mp hfind
    obtain ⟨ready, tr₂, h₂⟩ := run_drain pc cfg parses hp₁ (hq₁.trans hq) (by simpa using hpre)
    have h := Mealy.run_append.mpr ⟨w₁, tr₁, tr₂, h₁, h₂, rfl⟩
    have hquiet := List.forall_mem_append.mpr ⟨hquiet₁, quiet_drain pre⟩
    exact hu.not_head hquiet h hp₁ rfl hctl
  refine ⟨?_, hqueue⟩
  rcases hcalls : w.calls with _ | ⟨c, cs⟩
  · rfl
  · -- the channel is emptied, and then a call in progress sends its command
    exfalso
    obtain ⟨ready, tr₂, h₂⟩ :=
      run_drain pc cfg parses hp₁ (hq₁.trans (List.append_nil w.queue).symm) hqueue
    let w₂ := { w₁ with queue := [], ready }
    obtain ⟨es, w₃, hes, h₃, hres, hl₃, hq₃, hc₃⟩ := run_drop pc cfg parses w₂
    have hp₃ : w₃.loop.phase = .versionRejected url := by rw [hl₃]; exact hp₁
    have hroom : (w₃.loop.alive && hasRoom cfg { w₃ with calls := cs }) = true := by
      have hlen : w₃.queue.length + w₃.reserved < cfg.bufferSize := by
        rw [hq₃, hres]
        exact hb
      rw [Loop.alive, hp₃]
      exact decide_eq_true hlen
    have hs : w₃.step pc cfg parses (.notify 0) =
        some ({ w₃ with calls := cs, queue := w₃.queue ++ [c] }, []) := by
      have hcons : w₃.calls = c :: cs := hc₃.trans (hc₁.trans hcalls)
      simp only [step, hcons, List.getElem?_cons_zero, List.eraseIdx_cons_zero, trySend, hroom,
        if_true]
    have h₄ : (machine pc cfg parses snow).run w₂ (es ++ [Event.notify 0]) =
        some ({ w₃ with calls := cs, queue := w₃.queue ++ [c] }, []) :=
      Mealy.run_concat.mpr ⟨w₃, [], [], h₃, hs, rfl⟩
    have hquiet : ∀ e ∈ rejecting ++ (w.queue.map (fun c => Event.loop (.cmd c)) ++
        (es ++ [Event.notify 0])), ¬ e.isControlCall := by
      simp only [List.forall_mem_append]
      exact ⟨hquiet₁, quiet_drain _, hes, by decide⟩
    have h := Mealy.run_append.mpr ⟨w₁, _, _, h₁, Mealy.run_append.mpr ⟨_, _, _, h₂, h₄, rfl⟩, rfl⟩
    exact hu.not_head hquiet h hp₃ (congrArg (· ++ [c]) hq₃) (hc c (hcalls ▸ List.mem_cons_self))

/-- An attempt that dials now is undisturbed, whatever happens until the next call, exactly if no
command of an earlier call is on its way. -/
theorem run_undisturbed_iff {url : Text} (hb : 0 < cfg.bufferSize)
    (h : (machine pc cfg parses snow).run new es = some (w, tr))
    (hp : w.loop.phase = .connecting url) :
    Undisturbed pc cfg parses w ↔ Settled w :=
  ⟨fun hu => hu.settled hb (run_calls h) hp, fun hw _ he _ _ hr => hw.run he hr⟩

theorem run_undisturbed_iff_dialing : ∃ w tr,
    (machine .wire .sample (fun _ => true) (Snow.ideal Ideal.genuine)).run new
      (dialing "ws://a".toList) = some (w, tr) ∧
    Undisturbed .wire .sample (fun _ => true) w := by
  let r := (machine .wire .sample (fun _ => true) (Snow.ideal Ideal.genuine)).run new
    (dialing "ws://a".toList)
  have h : r = some (r.get rfl) := (Option.some_get rfl).symm
  have hs : Settled (r.get rfl).1 := ⟨rfl, by decide⟩
  exact ⟨_, _, h, (run_undisturbed_iff (by decide) h rfl).mpr hs⟩

/-- The loop's part of an attempt that ends in `Unauthorized`. -/
def goingUnauthorized (url : Text) : List Event :=
  (Loop.goingOnline url).dropLast.map (fun i => .loop i.2) ++
    [.loop (.authPayload (some [9])), .loop (.sent (.ok ())),
      .loop (.next (some (.ok (.binary (toLE32 3 ++ [1, 0, 0] ++ Ideal.tag 0))))),
      .loop (.authOutcome .unauthorized)]

/-- The endpoint is set before the loop first runs, and its `EndpointChanged` is taken after the
attempt: it closes the connection, or makes the loop dial again. -/
theorem run_stale_command :
    (∃ w tr, (machine .wire .sample (fun _ => true) (Snow.ideal Ideal.genuine)).run new
        ([.setEndpoint "ws://a".toList, .notify 0] ++
          (Loop.goingOnline "ws://a".toList).map (fun i => .loop i.2) ++
          [.loop (.cmd .endpointChanged)]) = some (w, tr) ∧
      [.loop (.publish .online), .loop (.resumed (.cmd .endpointChanged)), .loop .close] <:+ tr) ∧
    ∃ w tr, (machine .wire .sample (fun _ => true) (Snow.ideal Ideal.genuine)).run new
        ([.setEndpoint "ws://a".toList, .notify 0] ++ goingUnauthorized "ws://a".toList ++
          [.loop (.cmd .endpointChanged), .loop (.cancelFlag false),
            .loop (.url (some "ws://a".toList))]) = some (w, tr) ∧
      [.loop (.publish .unauthorized), .loop .clearPending,
        .loop (.resumed (.cmd .endpointChanged)), .loop (.resumed (.cancelFlag false)),
        .loop (.resumed (.url (some "ws://a".toList))), .loop (.nextDelay 0 (some .zero)),
        .loop (.publish .connecting), .loop (.dial "ws://a".toList)] <:+ tr := by
  constructor
  · exact ⟨_, _, (Option.some_get rfl).symm, by decide +kernel⟩
  · exact ⟨_, _, (Option.some_get rfl).symm, by decide +kernel⟩

end WsClient

end NotifiTransport

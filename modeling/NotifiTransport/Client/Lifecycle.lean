import NotifiTransport.Client.Returns

/-! # The life cycle of a connection

The states that the client publishes form a path in a diagram. Between two attempts there may be any
state that an attempt, a rejection or a lost connection leaves behind; from there the client is
without an endpoint, reconnects, or connects.
-/

namespace NotifiTransport

namespace ConnectionState

/-- Where the loop begins again. -/
def begins : ConnectionState → Bool
  | .disconnected | .connecting | .reconnecting _ _ => true
  | _ => false

/-- What can be left when there is no attempt and no connection. -/
def rests : ConnectionState → Bool
  | .disconnected | .reconnecting _ _ | .authenticating | .unauthorized | .versionMismatch _ _
  | .error _ => true
  | _ => false

/-- The diagram. -/
def next (s s' : ConnectionState) : Bool :=
  s.rests && s'.begins ||
    match s, s' with
    | .connecting, .handshaking | .connecting, .error _ | .handshaking, .authenticating
    | .handshaking, .versionMismatch _ _ | .handshaking, .error _ | .authenticating, .waitingForAuth
    | .authenticating, .online | .waitingForAuth, .online | .waitingForAuth, .unauthorized
    | .waitingForAuth, .error _ | .unauthorized, .unauthorized | .online, .disconnected => true
    | _, _ => false

end ConnectionState

/-- What the state channel can hold while the loop is in a phase. -/
def Phase.shows {snow : Snow} (s : ConnectionState) : Phase snow → Bool
  | .top | .readUrl | .backoff _ _ | .stopped | .panicked => s.rests
  | .parked | .checkAuto | .manual => s = .disconnected
  | .connecting _ => s = .connecting
  | .sendHello _ | .awaitReply _ => s = .handshaking
  | .versionRejected _ | .terminal _ => s.isTerminal
  | .noiseKeypair _ | .noiseSendE _ _ | .noiseAwait _ _ | .noiseSendS _ _ | .authPayload _ _ =>
    s = .authenticating
  | .authSend _ _ _ | .authAwait _ _ _ _ | .authProcess _ _ => s = .waitingForAuth
  | .online _ _ | .offline => s = .online

namespace Loop

variable {snow : Snow} {pc : Postcard} {cfg : WsClientConfig} {now : ℕ} {l l' : Loop snow}
  {i : Input} {r : Loop snow × List Effect} {s : ConnectionState} {o : List Effect}

/-- The states that the effects publish are a path from `s`, and the phase goes with its end. -/
def Walks (s : ConnectionState) (r : Loop snow × List Effect) : Prop :=
  (s :: r.2.filterMap Effect.published?).IsChain (·.next ·) ∧
    r.1.phase.shows (published s r.2)

theorem walks_quiet (ho : r.2.filterMap Effect.published? = []) (hp : r.1.phase.shows s) :
    Walks s r := by
  rw [Walks, published, ho]
  exact ⟨List.isChain_singleton s, hp⟩

theorem walks_publish {t : ConnectionState} (ho : r.2.filterMap Effect.published? = [t])
    (hn : s.next t) (hp : r.1.phase.shows t) : Walks s r := by
  rw [Walks, published, ho]
  exact ⟨List.isChain_pair.mpr hn, hp⟩

theorem rests_of_isTerminal (h : s.isTerminal) : s.rests := by
  cases s <;> first | rfl | cases h

theorem next_of_begins {t : ConnectionState} (hs : s.rests) (ht : t.begins) : s.next t := by
  simp [ConnectionState.next, hs, ht]

/-- A wait ends where nothing is published. -/
theorem walks_waitFor {wakes : ClientCmd → Bool} {woken cancelled : Loop snow}
    (hl : l.phase.shows s) (hs : s.rests) (hw : woken.phase = .top)
    (hc : cancelled.phase = .top ∨ cancelled.phase = .stopped)
    (h : l.waitFor wakes woken cancelled i = some r) : Walks s r := by
  unfold waitFor at h
  split at h <;> cases h
  · refine walks_quiet rfl ?_
    rcases hc with hc | hc <;> rw [hc] <;> exact hs
  · refine walks_quiet rfl ?_
    dsimp only
    split
    · rw [hw]
      exact hs
    · exact hl

theorem walks_onUrl (hs : s.rests) (u : Option Text) : Walks s (l.onUrl cfg now u) := by
  rcases l.onUrl_cases cfg now u with
    ⟨-, hu⟩ | ⟨url, rfl, ⟨-, hu⟩ | ⟨delay, -, ⟨-, hu⟩ | ⟨-, hu⟩⟩⟩ <;> rw [hu]
  · exact walks_publish rfl (next_of_begins hs rfl) rfl
  · exact walks_quiet rfl hs
  · cases l.everConnected
    · exact walks_quiet rfl hs
    · exact walks_publish rfl (next_of_begins hs rfl) rfl
  · exact walks_publish rfl (next_of_begins hs rfl) rfl

theorem walks_fail (l : Loop snow) (e : Text) (hn : s.next (.error e)) : Walks s (l.fail e) :=
  walks_publish rfl hn rfl

theorem walks_onVersionReply (l : Loop snow) (url : Text) (v : VersionReply) :
    Walks .handshaking (l.onVersionReply cfg url v) := by
  cases v <;> exact walks_publish rfl rfl rfl

theorem walks_goOnline (url : Text) (noise : NoiseSession snow) (hn : s.next .online) :
    Walks s (goOnline cfg now url noise) :=
  walks_publish rfl hn rfl

theorem walks_authChunks (l : Loop snow) (url : Text) (noise : NoiseSession snow)
    (chunks : List Bytes) : Walks .waitingForAuth (l.authChunks cfg now url noise chunks) := by
  cases chunks <;> exact walks_quiet rfl rfl

/-- The path goes on after a first state. -/
theorem Walks.cons {t : ConnectionState} {e : Effect} (h : Walks t (l', o))
    (he : e.published? = some t) (hn : s.next t) : Walks s (l', e :: o) := by
  obtain ⟨hc, hp⟩ := h
  rw [Walks, List.filterMap_cons_some he]
  refine ⟨List.isChain_cons_cons.mpr ⟨hn, hc⟩, ?_⟩
  have hone : published s [e] = t := by simp [published, he]
  rw [← List.singleton_append, published_append, hone]
  exact hp

theorem walks_onAuthPayload (l : Loop snow) (url : Text) (noise : NoiseSession snow)
    (p : Option Bytes) : Walks .authenticating (l.onAuthPayload pc cfg now url noise p) := by
  unfold onAuthPayload
  split
  · exact walks_goOnline url noise rfl
  · dsimp only
    refine Walks.cons ?_ rfl rfl
    split
    · exact l.walks_fail _ rfl
    · split
      · exact l.walks_fail _ rfl
      · exact l.walks_authChunks url _ _

theorem walks_onAuthItem (l : Loop snow) (url : Text) (noise : NoiseSession snow)
    (acc : FrameAccumulator) (deadline : ℕ) (m : WsItem) :
    Walks .waitingForAuth (l.onAuthItem pc cfg url noise acc deadline m) := by
  unfold onAuthItem
  split
  · split
    · exact l.walks_fail _ rfl
    · exact walks_quiet rfl rfl
    · split
      · exact walks_quiet rfl rfl
      · exact l.walks_fail _ rfl
  · exact l.walks_fail _ rfl

theorem walks_onAuthOutcome (l : Loop snow) (url : Text) (noise : NoiseSession snow)
    (outcome : AuthOutcome) :
    Walks .waitingForAuth (l.onAuthOutcome cfg now url noise outcome) := by
  cases outcome with
  | success => exact walks_goOnline url noise rfl
  | unauthorized =>
    have hlast : Walks .unauthorized (l.goto (.terminal url),
      [.publish .unauthorized, .clearPending]) := walks_publish rfl rfl rfl
    exact hlast.cons rfl rfl
  | failed | retryWithNewPayload => exact l.walks_fail _ rfl

/-- A step of the loop walks along the diagram. -/
theorem step_walks (h : l.step pc cfg now i = some r) (hl : l.phase.shows s) : Walks s r := by
  have hshow := hl
  cases hp : l.phase <;> simp only [step, hp] at h <;>
    simp only [hp, Phase.shows, decide_eq_true_eq] at hshow
  case top =>
    split at h <;> cases h
    next b => cases b <;> exact walks_quiet rfl hshow
  case readUrl =>
    split at h <;> cases h
    exact walks_onUrl hshow _
  case parked =>
    exact walks_waitFor hl (by rw [hshow]; rfl) rfl (Or.inr rfl) h
  case backoff url d =>
    split at h <;> cases h
    · exact walks_quiet rfl hshow
    · exact walks_publish rfl (next_of_begins hshow rfl) rfl
    · next c => cases c <;> exact walks_quiet rfl hshow
  case connecting url =>
    subst hshow
    split at h <;> cases h
    · exact walks_publish rfl rfl rfl
    · exact l.walks_fail _ rfl
  case sendHello url =>
    subst hshow
    split at h <;> cases h
    · exact walks_quiet rfl rfl
    · exact walks_publish rfl rfl rfl
  case awaitReply url =>
    subst hshow
    split at h <;> cases h
    exact l.walks_onVersionReply url _
  case versionRejected url =>
    exact walks_waitFor hl (rests_of_isTerminal hshow) rfl (Or.inl rfl) h
  case noiseKeypair url =>
    subst hshow
    split at h
    · split at h <;> cases h <;> exact walks_quiet rfl rfl
    · cases h
  case noiseSendE url noise =>
    subst hshow
    split at h <;> cases h <;> exact walks_quiet rfl rfl
  case noiseAwait url noise =>
    subst hshow
    split at h
    · split at h <;> cases h <;> exact walks_quiet rfl rfl
    · cases h
  case noiseSendS url noise =>
    subst hshow
    split at h
    · split at h <;> cases h <;> exact walks_quiet rfl rfl
    · cases h
      exact walks_quiet rfl rfl
    · cases h
  case authPayload url noise =>
    subst hshow
    split at h <;> cases h
    exact l.walks_onAuthPayload url noise _
  case authSend url noise rest =>
    subst hshow
    split at h <;> cases h
    · exact l.walks_authChunks url noise rest
    · exact l.walks_fail _ rfl
  case authAwait url noise acc deadline =>
    subst hshow
    split at h <;> cases h
    · exact l.walks_onAuthItem url noise acc deadline _
    · exact l.walks_fail _ rfl
  case authProcess url noise =>
    subst hshow
    split at h <;> cases h
    exact l.walks_onAuthOutcome url noise _
  case terminal url =>
    exact walks_waitFor hl (rests_of_isTerminal hshow) rfl (Or.inr rfl) h
  case online url m =>
    subst hshow
    obtain ⟨⟨t, o⟩, hs, rfl⟩ := Option.map_eq_some_iff.mp h
    have ho : o.filterMap Effect.published? = [] := by
      rw [List.filterMap_eq_nil_iff]
      intro e he
      have ht := MsgLoop.step_isTraffic hs e he
      cases e <;> first | rfl | cases ht
    refine walks_quiet ho ?_
    rcases t with _ | m' <;> rfl
  case offline =>
    subst hshow
    split at h <;> cases h
    exact walks_publish rfl rfl rfl
  case checkAuto =>
    subst hshow
    split at h <;> cases h <;> exact walks_quiet rfl rfl
  case manual =>
    exact walks_waitFor hl (by rw [hshow]; rfl) rfl (Or.inr rfl) h
  all_goals cases h

/-- A path that begins where another one ends. -/
theorem isChain_published {tr : List Effect}
    (h : (s :: tr.filterMap Effect.published?).IsChain (·.next ·))
    (h' : (published s tr :: o.filterMap Effect.published?).IsChain (·.next ·)) :
    (s :: (tr ++ o).filterMap Effect.published?).IsChain (·.next ·) := by
  rw [List.filterMap_append]
  unfold published at h'
  rcases List.eq_nil_or_concat (tr.filterMap Effect.published?) with hn | ⟨a, x, hx⟩
  · rw [hn] at h' ⊢
    exact h'
  · rw [List.concat_eq_append] at hx
    rw [hx, List.getLast?_concat] at h'
    rw [hx] at h ⊢
    rw [← List.cons_append] at h
    rw [List.append_assoc, ← List.cons_append]
    exact List.isChain_split.mpr ⟨h, h'⟩

/-- The client has been online if it remembers so. -/
theorem step_remembers (h : l.step pc cfg now i = some r) (hc : r.1.everConnected = true) :
    l.everConnected = true ∨ .publish .online ∈ r.2 := by
  rcases step_cases h with ⟨-, ha⟩ | hr | ⟨url, m, s, -, -, -, ⟨-, hr⟩ | ⟨m', -, hr⟩⟩
  · cases ha with
    | online => exact Or.inr List.mem_cons_self
    | _ => exact Or.inl hc
  · refine Or.inl ?_
    cases hr with
    | endpoint u =>
      rcases l.onUrl_cases cfg now u with
        ⟨-, hu⟩ | ⟨url, rfl, ⟨-, hu⟩ | ⟨delay, -, ⟨-, hu⟩ | ⟨-, hu⟩⟩⟩ <;> rw [hu] at hc <;> exact hc
    | @woken c =>
      have hsame : (l.woken c).everConnected = l.everConnected := by
        unfold woken
        split
        · cases c <;> rfl
        all_goals rfl
      exact hsame ▸ hc
    | released =>
      have hsame : l.released.everConnected = l.everConnected := by
        unfold released
        split <;> rfl
      exact hsame ▸ hc
    | auto b => cases b <;> exact hc
    | _ => exact hc
  · rw [hr] at hc
    exact Or.inl hc
  · rw [hr] at hc
    exact Or.inl hc

/-- `Reconnecting` comes with the number of the attempt and its delay. -/
theorem step_reconnecting {n : UInt32} {d : Duration} (h : l.step pc cfg now i = some r)
    (hm : .publish (.reconnecting n d) ∈ r.2) :
    l.everConnected = true ∧ cfg.backoff.nextDelay n = some d := by
  rcases step_cases h with ⟨-, ha⟩ | hr | ⟨url, m, s, -, hs, ho, -⟩
  · rcases ha.effects hm with ha | hx | ⟨s, hs, hx⟩
    · cases ha
    · cases hx
    · cases hx
      rcases hs with hs | hs <;> cases hs
  · cases hr with
    | endpoint u =>
      rcases l.onUrl_cases cfg now u with
        ⟨-, hu⟩ | ⟨url, rfl, ⟨-, hu⟩ | ⟨delay, hd, ⟨-, hu⟩ | ⟨-, hu⟩⟩⟩ <;> rw [hu] at hm
      · simp at hm
      · simp at hm
      · cases he : l.everConnected
        · simp [he] at hm
        · simp only [he, if_true, List.mem_cons, reduceCtorEq, Effect.publish.injEq,
            ConnectionState.reconnecting.injEq, List.not_mem_nil, or_false, false_or] at hm
          obtain ⟨rfl, rfl⟩ := hm
          exact ⟨rfl, hd⟩
      · simp at hm
    | elapsed => simp [dial] at hm
    | disconnected => simp at hm
    | _ => cases hm
  · rw [ho] at hm
    cases MsgLoop.step_isTraffic hs _ hm

/-- What has been published is a path in the diagram from `Disconnected`. `Reconnecting` is
published with the delay of the attempt, and only by a client that has been online. -/
theorem run_published {is : List (ℕ × Input)} {tr : List Effect}
    (h : (machine pc cfg snow).run .init is = some (l, tr)) :
    (.disconnected :: tr.filterMap Effect.published?).IsChain (·.next ·) ∧
      ∀ pre n d post, tr.filterMap Effect.published? = pre ++ .reconnecting n d :: post →
        .online ∈ pre ∧ cfg.backoff.nextDelay n = some d := by
  have hall : (.disconnected :: tr.filterMap Effect.published?).IsChain (·.next ·) ∧
      l.phase.shows (published .disconnected tr) ∧
      (l.everConnected = true → .online ∈ tr.filterMap Effect.published?) ∧
      ∀ pre n d post, tr.filterMap Effect.published? = pre ++ .reconnecting n d :: post →
        .online ∈ pre ∧ cfg.backoff.nextDelay n = some d := by
    refine Mealy.run_induction (P := fun _ tr l =>
      (.disconnected :: tr.filterMap Effect.published?).IsChain (·.next ·) ∧
      l.phase.shows (published .disconnected tr) ∧
      (l.everConnected = true → .online ∈ tr.filterMap Effect.published?) ∧
      ∀ pre n d post, tr.filterMap Effect.published? = pre ++ .reconnecting n d :: post →
        .online ∈ pre ∧ cfg.backoff.nextDelay n = some d)
      ⟨List.isChain_singleton _, rfl, fun he => Bool.noConfusion he, by simp⟩ ?_ h
    rintro is tr m x l o - ⟨hc, hp, he, hd⟩ hs
    obtain ⟨r, hr, rfl, rfl⟩ := machine_step.mp hs
    obtain ⟨hc', hp'⟩ := step_walks hr hp
    have hpubs : (Effect.resumed x.2 :: r.2).filterMap Effect.published? =
        r.2.filterMap Effect.published? := rfl
    refine ⟨isChain_published hc hc', ?_, ?_, ?_⟩
    · rw [published_append]
      exact hp'
    · intro hever
      rw [List.filterMap_append, hpubs]
      rcases step_remembers hr hever with hold | hnew
      · exact List.mem_append_left _ (he hold)
      · exact List.mem_append_right _ (List.mem_filterMap.mpr ⟨_, hnew, rfl⟩)
    · intro pre n d post hsplit
      rw [List.filterMap_append, hpubs] at hsplit
      have hnew : .reconnecting n d ∈ r.2.filterMap Effect.published? →
          .online ∈ tr.filterMap Effect.published? ∧ cfg.backoff.nextDelay n = some d := by
        intro hm
        obtain ⟨e, hmem, hpub⟩ := List.mem_filterMap.mp hm
        cases e <;> cases hpub
        obtain ⟨hever, hdelay⟩ := step_reconnecting hr hmem
        exact ⟨he hever, hdelay⟩
      rcases List.append_eq_append_iff.mp hsplit with ⟨a, rfl, ha⟩ | ⟨_ | ⟨x, a⟩, ha, hb⟩
      · obtain ⟨hon, hdelay⟩ := hnew (by simp [ha])
        exact ⟨List.mem_append_left _ hon, hdelay⟩
      · obtain ⟨hon, hdelay⟩ := hnew (by rw [← List.nil_append (r.2.filterMap _), ← hb]; simp)
        rw [List.append_nil] at ha
        exact ⟨ha ▸ hon, hdelay⟩
      · obtain ⟨rfl, -⟩ := List.cons.inj hb
        exact hd pre n d a ha
  exact ⟨hall.1, hall.2.2.2⟩

end Loop

namespace WsClient

variable {snow : Snow} {pc : Postcard} {cfg : WsClientConfig} {parses : Text → Bool}
  {w : WsClient snow} {es : List Event} {tr : List Output}

/-- The states that a client has published. -/
def states (tr : List Output) : List ConnectionState :=
  (tr.filterMap Output.loop?).filterMap Effect.published?

/-- What a client has published is a path in the diagram from `Disconnected`. `Reconnecting` is
published with the delay of the attempt, and only by a client that has been online. -/
theorem run_lifecycle (h : (machine pc cfg parses snow).run new es = some (w, tr)) :
    (.disconnected :: states tr).IsChain (·.next ·) ∧
      ∀ pre n d post, states tr = pre ++ .reconnecting n d :: post →
        .online ∈ pre ∧ cfg.backoff.nextDelay n = some d := by
  obtain ⟨is, hr⟩ := run_simulates h
  exact Loop.run_published hr

/-- The client goes online, loses its connection and backs off. -/
def backingOff (url : Text) : List Event :=
  .setEndpoint url :: (Loop.goingOnline url).map (fun i => .loop i.2) ++
    [.loop (.next none), .loop .proceed, .loop (.autoReconnect true), .loop (.cancelFlag false),
      .loop (.url (some url))]

theorem run_lifecycle_backingOff : ∃ w tr d,
    (machine .wire .sample (fun _ => true) (Snow.ideal Ideal.genuine)).run new
        (backingOff "ws://a".toList) = some (w, tr) ∧
      states tr = [.connecting, .handshaking, .authenticating, .online, .disconnected] ++
        .reconnecting 1 d :: [] ∧
      (.disconnected :: states tr).IsChain (·.next ·) ∧
      WsClientConfig.sample.backoff.nextDelay 1 = some d := by
  have hrun : ((machine .wire .sample (fun _ => true) (Snow.ideal Ideal.genuine)).run new
      (backingOff "ws://a".toList)).any (fun x =>
        states x.2 = [.connecting, .handshaking, .authenticating, .online, .disconnected] ++
          .reconnecting 1 (.ofSecs 2) :: []) = true := by
    decide +kernel
  obtain ⟨⟨w, tr⟩, h, hx⟩ := (Option.any_eq_true _ _).mp hrun
  have hstates := of_decide_eq_true hx
  obtain ⟨hc, hd⟩ := run_lifecycle h
  exact ⟨w, tr, _, h, hstates, hc, (hd _ _ _ _ hstates).2⟩

end WsClient

end NotifiTransport

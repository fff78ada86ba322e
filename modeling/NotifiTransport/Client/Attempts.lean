import NotifiTransport.Client.Steps

/-! # Connection attempts and waits

An attempt runs from the dial to the end of the authentication. A step inside it can only go on,
fail, end in a wait for new credentials, or reach `Online`. The waits outside attempts and the
message loop are alike in what they do with a command and with a cancellation.
-/

namespace NotifiTransport

/-- A connection attempt is in progress. -/
def Phase.attempting {snow : Snow} : Phase snow → Bool
  | .connecting _ | .sendHello _ | .awaitReply _ | .noiseKeypair _ | .noiseSendE _ _
  | .noiseAwait _ _ | .noiseSendS _ _ | .authPayload _ _ | .authSend _ _ _ | .authAwait _ _ _ _
  | .authProcess _ _ => true
  | _ => false

/-- A wait outside the message loop that receives from the command channel. -/
def Phase.receives {snow : Snow} : Phase snow → Bool
  | .parked | .backoff _ _ | .versionRejected _ | .terminal _ | .manual => true
  | _ => false

/-- The wait after `Unauthorized` or `VersionMismatch`. -/
def Phase.rejected {snow : Snow} : Phase snow → Bool
  | .versionRejected _ | .terminal _ => true
  | _ => false

/-- On the way to the next attempt. -/
def Phase.approaching {snow : Snow} : Phase snow → Bool
  | .top | .readUrl | .parked | .backoff _ _ => true
  | _ => false

def Phase.isTop {snow : Snow} : Phase snow → Bool
  | .top => true
  | _ => false

theorem Phase.not_attempting_of_receives {snow : Snow} {p : Phase snow} (h : p.receives) :
    ¬ p.attempting := by
  cases p <;> cases h <;> exact Bool.false_ne_true

/-- A step between attempts leads here. -/
def Phase.rested {snow : Snow} (p : Phase snow) : Bool :=
  p.approaching || p.rejected || match p with
    | .connecting _ | .checkAuto | .manual | .stopped | .panicked => true
    | _ => false

/-- A step of an attempt leads here. -/
def Phase.attempted {snow : Snow} (p : Phase snow) : Bool :=
  p.attempting || p.rejected || match p with
    | .top | .online _ _ => true
    | _ => false

/-- An effect of an attempt that does not end it. -/
def Effect.ofAttempt : Effect → Bool
  | .publish .handshaking | .publish .authenticating | .publish .waitingForAuth
  | .publish (.error _) | .send _ | .noiseFinished | .authFrame _ | .process _ => true
  | _ => false

/-- An effect of a step between attempts. -/
def Effect.ofRest : Effect → Bool
  | .publish .disconnected | .publish .connecting | .publish (.reconnecting _ _) | .nextDelay _ _
  | .dial _ | .clearPending => true
  | _ => false

namespace Loop

variable {snow : Snow} {pc : Postcard} {cfg : WsClientConfig} {now : ℕ} {l : Loop snow}
  {i : Input} {r : Loop snow × List Effect}

/-- What a step of an attempt leads to. -/
inductive Attempted (cfg : WsClientConfig) (now : ℕ) (l : Loop snow) :
    Loop snow × List Effect → Prop where

  | goesOn {phase : Phase snow} {o : List Effect} : phase.attempting → (∀ e ∈ o, e.ofAttempt) →
      Attempted cfg now l (l.goto phase, o)

  | failed {o : List Effect} : (∀ e ∈ o, e.ofAttempt) → Attempted cfg now l (l.retry, o)

  | rejected {phase : Phase snow} {s : ConnectionState} {o : List Effect} : phase.rejected →
      s.isTerminal → (∀ e ∈ o, e = .publish s) →
      Attempted cfg now l (l.goto phase, o ++ [.publish s, .clearPending])

  | online (url : Text) (noise : NoiseSession snow) :
      Attempted cfg now l (goOnline cfg now url noise)

theorem Attempted.phase (h : Attempted cfg now l r) : r.1.phase.attempted := by
  cases h with
  | goesOn hp => simp [goto, Phase.attempted, hp]
  | failed => rfl
  | rejected hp => simp [goto, Phase.attempted, hp]
  | online => rfl

/-- An attempt that enters the message loop has just authenticated. -/
theorem Attempted.online_of_phase {url : Text} {m : MsgLoop snow} (h : Attempted cfg now l r)
    (hp : r.1.phase = .online url m) : ∃ noise, r = goOnline cfg now url noise := by
  cases h with
  | @goesOn phase o ha =>
    obtain rfl : phase = .online url m := hp
    cases ha
  | failed => cases hp
  | @rejected phase s o ha =>
    obtain rfl : phase = .online url m := hp
    cases ha
  | online url' noise =>
    cases hp
    exact ⟨noise, rfl⟩

/-- The effects of an attempt: those that do not end it, and those of its end. -/
theorem Attempted.effects (h : Attempted cfg now l r) {e : Effect} (he : e ∈ r.2) :
    e.ofAttempt ∨ e = .clearPending ∨ ∃ s, (s.isTerminal ∨ s = .online) ∧ e = .publish s := by
  cases h with
  | goesOn _ ho => exact Or.inl (ho e he)
  | failed ho => exact Or.inl (ho e he)
  | @rejected phase s o _ hs ho =>
    apply Or.inr
    simp only [List.mem_append, List.mem_cons, List.not_mem_nil, or_false] at he
    rcases he with he | rfl | rfl
    · exact Or.inr ⟨s, Or.inl hs, ho e he⟩
    · exact Or.inr ⟨s, Or.inl hs, rfl⟩
    · exact Or.inl rfl
  | online => exact Or.inr (Or.inr ⟨_, Or.inr rfl, List.mem_singleton.mp he⟩)

theorem attempted_fail (l : Loop snow) (e : Text) : Attempted cfg now l (l.fail e) :=
  .failed (by simp [Effect.ofAttempt])

theorem attempted_authChunks (l : Loop snow) (url : Text) (noise : NoiseSession snow)
    {o : List Effect} (ho : ∀ e ∈ o, e.ofAttempt) (chunks : List Bytes) : Attempted cfg now l
      ((l.authChunks cfg now url noise chunks).1,
        o ++ (l.authChunks cfg now url noise chunks).2) := by
  cases chunks with
  | nil => exact .goesOn rfl (by simpa [authChunks] using ho)
  | cons c cs =>
    refine .goesOn rfl ?_
    intro e he
    rcases List.mem_append.mp he with he | he
    · exact ho e he
    · rw [List.mem_singleton.mp he]
      rfl

theorem attempted_onAuthPayload (l : Loop snow) (url : Text) (noise : NoiseSession snow)
    (p : Option Bytes) : Attempted cfg now l (l.onAuthPayload pc cfg now url noise p) := by
  unfold onAuthPayload
  split
  · exact .online url noise
  · dsimp only
    split
    · exact .failed (by simp [authFailed, fail, Effect.ofAttempt])
    · split
      · exact .failed (by simp [authFailed, fail, Effect.ofAttempt])
      · exact attempted_authChunks l url _ (o := [_]) (by simp [Effect.ofAttempt]) _

theorem attempted_onAuthItem (l : Loop snow) (url : Text) (noise : NoiseSession snow)
    (acc : FrameAccumulator) (deadline : ℕ) (m : WsItem) :
    Attempted cfg now l (l.onAuthItem pc cfg url noise acc deadline m) := by
  unfold onAuthItem
  split
  · split
    · exact attempted_fail l _
    · exact .goesOn rfl (by simp)
    · split
      · exact .goesOn rfl (by simp [Effect.ofAttempt])
      · exact attempted_fail l _
  · exact attempted_fail l _

theorem attempted_onVersionReply (l : Loop snow) (url : Text) (v : VersionReply) :
    Attempted cfg now l (l.onVersionReply cfg url v) := by
  cases v with
  | accepted => exact .goesOn rfl (by simp [Effect.ofAttempt])
  | rejected server => exact .rejected (o := []) rfl rfl (by simp)
  | failed e => exact attempted_fail l e

theorem attempted_onAuthOutcome (l : Loop snow) (url : Text) (noise : NoiseSession snow)
    (outcome : AuthOutcome) :
    Attempted cfg now l (l.onAuthOutcome cfg now url noise outcome) := by
  cases outcome with
  | success => exact .online url noise
  | unauthorized => exact .rejected (o := [_]) rfl rfl (by simp)
  | failed | retryWithNewPayload => exact attempted_fail l _

/-- The one inversion lemma for the phases of an attempt. -/
theorem step_attempted (hp : l.phase.attempting) (h : l.step pc cfg now i = some r) :
    Attempted cfg now l r := by
  cases hl : l.phase <;> rw [hl] at hp <;> cases hp <;> simp only [step, hl] at h
  case connecting url =>
    split at h <;> cases h
    · exact .goesOn rfl (by simp [Effect.ofAttempt])
    · exact attempted_fail l _
  case sendHello url =>
    split at h <;> cases h
    · exact .goesOn rfl (by simp)
    · exact attempted_fail l _
  case awaitReply url =>
    split at h <;> cases h
    exact attempted_onVersionReply l url _
  case noiseKeypair url =>
    split at h
    · split at h <;> cases h
      · exact .failed (by simp)
      · exact .goesOn rfl (by simp [Effect.ofAttempt])
    · cases h
  case noiseSendE url noise =>
    split at h <;> cases h
    · exact .goesOn rfl (by simp)
    · exact .failed (by simp)
  case noiseAwait url noise =>
    split at h
    · split at h <;> cases h
      · exact .failed (by simp)
      · exact .goesOn rfl (by simp [Effect.ofAttempt])
    · cases h
  case noiseSendS url noise =>
    split at h
    · split at h <;> cases h
      · exact .failed (by simp)
      · exact .goesOn rfl (by simp [Effect.ofAttempt])
    · cases h
      exact .failed (by simp)
    · cases h
  case authPayload url noise =>
    split at h <;> cases h
    exact attempted_onAuthPayload l url noise _
  case authSend url noise rest =>
    split at h <;> cases h
    · exact attempted_authChunks l url noise (o := []) (by simp) rest
    · exact attempted_fail l _
  case authAwait url noise acc deadline =>
    split at h <;> cases h
    · exact attempted_onAuthItem l url noise acc deadline _
    · exact attempted_fail l _
  case authProcess url noise =>
    split at h <;> cases h
    exact attempted_onAuthOutcome l url noise _

/-- The command ends the wait. -/
def wokenBy (l : Loop snow) (c : ClientCmd) : Bool :=
  match l.phase with
  | .parked => isEndpointChanged c
  | .versionRejected _ | .manual => isControl c
  | .terminal _ => isWake c
  | _ => true

/-- The loop after a command that ends the wait. -/
def woken (l : Loop snow) (c : ClientCmd) : Loop snow :=
  match l.phase with
  | .backoff _ _ => l.onBackoffCmd c
  | .versionRejected _ => l.retry
  | .terminal _ => l.restart
  | _ => l.goto .top

/-- The loop after a cancellation of the wait. -/
def released (l : Loop snow) : Loop snow :=
  match l.phase with
  | .versionRejected _ => l.retry
  | _ => l.goto .stopped

/-- What a step outside attempts and the message loop does. -/
inductive Rested (cfg : WsClientConfig) (now : ℕ) (l : Loop snow) :
    Input → Loop snow × List Effect → Prop where

  | flag (b : Bool) : l.phase = .top →
      Rested cfg now l (.cancelFlag b) (l.goto (if b then .stopped else .readUrl), [])

  | endpoint (u : Option Text) : l.phase = .readUrl →
      Rested cfg now l (.url u) (l.onUrl cfg now u)

  | idle {c : ClientCmd} : l.phase.receives → ¬ l.wokenBy c → Rested cfg now l (.cmd c) (l, [])

  | woken {c : ClientCmd} : l.phase.receives → l.wokenBy c →
      Rested cfg now l (.cmd c) (l.woken c, [])

  | released : l.phase.receives → Rested cfg now l .cancelled (l.released, [])

  | elapsed {url : Text} {d : ℕ} : l.phase = .backoff url d →
      Rested cfg now l .elapsed (l.dial url)

  | disconnected : l.phase = .offline →
      Rested cfg now l .proceed (l.goto .checkAuto, [.publish .disconnected, .clearPending])

  | auto (b : Bool) : l.phase = .checkAuto → Rested cfg now l (.autoReconnect b)
      (if b then { l with phase := .top, reconnectAttempt := 1 } else l.goto .manual, [])

theorem rested_waitFor {wakes : ClientCmd → Bool} {woken released : Loop snow}
    (hr : l.phase.receives) (hc : l.wokenBy = wakes) (hw : ∀ c, l.woken c = woken)
    (hl : l.released = released) (h : l.waitFor wakes woken released i = some r) :
    Rested cfg now l i r := by
  subst hl
  unfold waitFor at h
  split at h
  · cases h
    exact .released hr
  · next c =>
    cases h
    split
    · next hwakes =>
      rw [← hw c]
      exact .woken hr (hc ▸ hwakes)
    · next hwakes => exact .idle hr (hc ▸ hwakes)
  · cases h

/-- A step of the loop by where it is taken: in an attempt, in the message loop, or between. -/
theorem step_cases (h : l.step pc cfg now i = some r) :
    l.phase.attempting ∧ Attempted cfg now l r ∨ Rested cfg now l i r ∨
      ∃ url m s, l.phase = .online url m ∧ m.step pc cfg now i = some s ∧ r.2 = s.2 ∧
        (s.1 = none ∧ r.1 = l.goto .offline ∨
          ∃ m', s.1 = some m' ∧ r.1 = l.goto (.online url m')) := by
  by_cases ha : l.phase.attempting
  · exact Or.inl ⟨ha, step_attempted ha h⟩
  apply Or.inr
  cases hl : l.phase <;> rw [hl] at ha <;> simp only [Phase.attempting, not_true_eq_false] at ha <;>
    simp only [step, hl] at h
  case online url m =>
    obtain ⟨s, hs, rfl⟩ := Option.map_eq_some_iff.mp h
    refine Or.inr ⟨url, m, s, rfl, hs, rfl, ?_⟩
    rcases hm : s.1 with _ | m'
    · exact Or.inl ⟨rfl, rfl⟩
    · exact Or.inr ⟨m', rfl, rfl⟩
  all_goals refine Or.inl ?_
  case parked | terminal | manual =>
    refine rested_waitFor (by rw [hl]; rfl) ?_ ?_ ?_ h
    · funext c
      simp only [wokenBy, hl]
    · intro c
      simp only [woken, hl]
    · simp only [released, hl]
  case versionRejected =>
    refine rested_waitFor (by rw [hl]; rfl) ?_ ?_ ?_ h
    · funext c
      simp only [wokenBy, hl]
    · intro c
      simp only [woken, hl]
      rfl
    · simp only [released, hl]
      rfl
  case top =>
    split at h <;> cases h
    exact .flag _ hl
  case readUrl =>
    split at h <;> cases h
    exact .endpoint _ hl
  case backoff =>
    split at h <;> cases h
    · have hr : l.released = l.goto .stopped := by simp only [released, hl]
      exact hr ▸ .released (by rw [hl]; rfl)
    · exact .elapsed hl
    · next c =>
      have hw : l.woken c = l.onBackoffCmd c := by simp only [woken, hl]
      exact hw ▸ .woken (by rw [hl]; rfl) (by simp only [wokenBy, hl])
  case offline =>
    split at h <;> cases h
    exact .disconnected hl
  case checkAuto =>
    split at h <;> cases h
    · exact .auto true hl
    · exact .auto false hl
  all_goals cases h

theorem step_cmd_of_attempting (hp : l.phase.attempting) (c : ClientCmd) :
    l.step pc cfg now (.cmd c) = none := by
  cases hl : l.phase <;> rw [hl] at hp <;> cases hp <;> simp only [step, hl]

/-- The places that take a command, and what they do with it. -/
theorem step_cmd {c : ClientCmd} (h : l.step pc cfg now (.cmd c) = some r) :
    (∃ url m, l.phase = .online url m) ∨
      l.phase.receives ∧ r = (if l.wokenBy c then l.woken c else l, []) := by
  rcases step_cases h with ⟨ha, -⟩ | hr | ⟨url, m, -, hp, -⟩
  · rw [step_cmd_of_attempting ha] at h
    cases h
  · apply Or.inr
    cases hr with
    | idle hp hw => exact ⟨hp, by rw [if_neg hw]⟩
    | woken hp hw => exact ⟨hp, by rw [if_pos hw]⟩
  · exact Or.inl ⟨url, m, hp⟩

variable (cfg now) in
/-- What follows the read of the endpoint. -/
theorem onUrl_cases (l : Loop snow) (u : Option Text) :
    (u = none ∧ l.onUrl cfg now u = (l.goto .parked, [.publish .disconnected])) ∨
      ∃ url, u = some url ∧
        (cfg.backoff.nextDelay l.reconnectAttempt = none ∧
            l.onUrl cfg now u = (l.goto .panicked, [.nextDelay l.reconnectAttempt none]) ∨
          ∃ delay, cfg.backoff.nextDelay l.reconnectAttempt = some delay ∧
            (0 < delay.nanos ∧ l.onUrl cfg now u =
                (l.goto (.backoff url (now + delay.nanos)),
                  .nextDelay l.reconnectAttempt (some delay) ::
                    if l.everConnected then [.publish (.reconnecting l.reconnectAttempt delay)]
                    else []) ∨
              delay.nanos = 0 ∧ l.onUrl cfg now u = (l.goto (.connecting url),
                [.nextDelay l.reconnectAttempt (some delay), .publish .connecting,
                  .dial url]))) := by
  cases u with
  | none => exact Or.inl ⟨rfl, rfl⟩
  | some url =>
    refine Or.inr ⟨url, rfl, ?_⟩
    rcases hd : cfg.backoff.nextDelay l.reconnectAttempt with _ | delay
    · exact Or.inl ⟨rfl, by simp only [onUrl, hd]⟩
    · refine Or.inr ⟨delay, rfl, ?_⟩
      rcases Nat.eq_zero_or_pos delay.nanos with hz | hpos
      · exact Or.inr ⟨hz, by simp [onUrl, hd, hz, dial]⟩
      · refine Or.inl ⟨hpos, ?_⟩
        simp only [onUrl, hd, hpos, if_true]
        split <;> rfl

theorem wokenBy_backoff {url : Text} {d : ℕ} (hp : l.phase = .backoff url d) (c : ClientCmd) :
    l.wokenBy c := by
  simp only [wokenBy, hp]

theorem woken_phase (l : Loop snow) (c : ClientCmd) : (l.woken c).phase = .top := by
  unfold woken
  split
  · cases c <;> rfl
  all_goals rfl

theorem released_phase (l : Loop snow) :
    l.released.phase = .stopped ∨ l.released.phase = .top ∧ l.phase.rejected := by
  unfold released
  split
  · next hp => exact Or.inr ⟨rfl, by rw [hp]; rfl⟩
  · exact Or.inl rfl

theorem Rested.phase (hr : Rested cfg now l i r) : r.1.phase.rested := by
  cases hr with
  | flag b | auto b => cases b <;> rfl
  | endpoint u =>
    rcases l.onUrl_cases cfg now u with
      ⟨-, hu⟩ | ⟨url, -, ⟨-, hu⟩ | ⟨d, -, ⟨-, hu⟩ | ⟨-, hu⟩⟩⟩ <;> rw [hu] <;> rfl
  | idle hp => cases hl : l.phase <;> rw [hl] at hp <;> cases hp <;> rfl
  | woken =>
    rw [woken_phase]
    rfl
  | released => rcases l.released_phase with hn | ⟨hn, -⟩ <;> rw [hn] <;> rfl
  | elapsed | disconnected => rfl

theorem Rested.effects (hr : Rested cfg now l i r) : ∀ e ∈ r.2, e.ofRest := by
  cases hr with
  | flag | idle | woken | released | auto => simp
  | endpoint u =>
    rcases l.onUrl_cases cfg now u with
      ⟨-, hu⟩ | ⟨url, -, ⟨-, hu⟩ | ⟨d, -, ⟨-, hu⟩ | ⟨-, hu⟩⟩⟩ <;> rw [hu]
    · simp [Effect.ofRest]
    · simp [Effect.ofRest]
    · split <;> simp [Effect.ofRest]
    · simp [Effect.ofRest]
  | elapsed => simp [dial, Effect.ofRest]
  | disconnected => simp [Effect.ofRest]

/-- Between attempts the loop publishes that it is disconnected, reconnecting or connecting. -/
theorem Rested.publish {s : ConnectionState} (hr : Rested cfg now l i r) (hm : .publish s ∈ r.2) :
    s = .disconnected ∨ s = .connecting ∨ ∃ n d, s = .reconnecting n d := by
  have he := hr.effects _ hm
  cases s <;> cases he <;> simp

/-- A backoff starts where the endpoint is read, with the delay of the counter. -/
theorem step_backoff {url : Text} {d : ℕ} (h : l.step pc cfg now i = some r)
    (hp : r.1.phase = .backoff url d) : ∃ delay, l.phase = .readUrl ∧ i = .url (some url) ∧
      cfg.backoff.nextDelay l.reconnectAttempt = some delay ∧ 0 < delay.nanos ∧
      d = now + delay.nanos ∧ r.1 = l.goto (.backoff url d) := by
  rcases step_cases h with ⟨-, ha⟩ | hr | ⟨url', m, s, -, -, -, ⟨-, hr⟩ | ⟨m', -, hr⟩⟩
  · have hn := ha.phase
    rw [hp] at hn
    cases hn
  · cases hr with
    | flag b => cases b <;> cases hp
    | endpoint u hl =>
      rcases l.onUrl_cases cfg now u with
        ⟨-, hu⟩ | ⟨url', rfl, ⟨-, hu⟩ | ⟨delay, hd, ⟨hpos, hu⟩ | ⟨-, hu⟩⟩⟩ <;> rw [hu] at hp ⊢ <;>
          cases hp
      exact ⟨delay, hl, rfl, hd, hpos, rfl, rfl⟩
    | idle _ hw => exact absurd (wokenBy_backoff hp _) hw
    | woken => rw [woken_phase] at hp; cases hp
    | released =>
      rcases l.released_phase with hn | ⟨hn, -⟩ <;> rw [hn] at hp <;> cases hp
    | elapsed => cases hp
    | disconnected => cases hp
    | auto b => cases b <;> cases hp
  · rw [hr] at hp
    cases hp
  · rw [hr] at hp
    cases hp

/-- The message loop is entered at the end of an attempt, and otherwise makes its own steps. -/
theorem step_toOnline {url : Text} {m' : MsgLoop snow} (h : l.step pc cfg now i = some r)
    (hp : r.1.phase = .online url m') :
    (∃ m s, l.phase = .online url m ∧ m.step pc cfg now i = some s ∧ s.1 = some m') ∨
      ∃ noise, r = goOnline cfg now url noise := by
  rcases step_cases h with ⟨-, ha⟩ | hr | ⟨url', m, s, hl, hs, -, ⟨-, hr⟩ | ⟨m₁, hm, hr⟩⟩
  · exact Or.inr (ha.online_of_phase hp)
  · have hn := hr.phase
    rw [hp] at hn
    cases hn
  · rw [hr] at hp
    cases hp
  · rw [hr] at hp
    cases hp
    exact Or.inl ⟨m, s, hl, hs, hm⟩

end Loop

end NotifiTransport

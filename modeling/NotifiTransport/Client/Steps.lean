import NotifiTransport.Client.Connection

/-! # What one step of the connection loop can do

The effects that the results about runs look for, with the steps that have them.
-/

namespace NotifiTransport

/-- The effects of an open connection: traffic on the socket and dispatched frames. -/
def Effect.isTraffic : Effect → Bool
  | .send _ | .close | .transmit _ | .wrote _ | .dispatch _ => true
  | _ => false

namespace MsgLoop

variable {snow : Snow} {pc : Postcard} {cfg : WsClientConfig} {now : ℕ} {m : MsgLoop snow}
  {i : Input} {r : Option (MsgLoop snow) × List Effect}

theorem isTraffic_writeChunks (m : MsgLoop snow) (f : Frame) (cs : List Bytes) :
    ∀ e ∈ (m.writeChunks f cs).2, e.isTraffic := by
  cases cs <;> simp [writeChunks, Effect.isTraffic]

theorem isTraffic_pingChunks (m : MsgLoop snow) (cs : List Bytes) :
    ∀ e ∈ (m.pingChunks cfg now cs).2, e.isTraffic := by
  cases cs <;> simp [pingChunks, Effect.isTraffic]

theorem isTraffic_pump (m : MsgLoop snow) : ∀ e ∈ (m.pump pc).2, e.isTraffic := by
  rcases m.pump_cases pc with ⟨_, -, h⟩ | h | ⟨f, _, _, _, chunks, -, -, -, h⟩ <;> rw [h]
  · simp
  · simp
  · exact List.forall_mem_cons.mpr ⟨rfl, isTraffic_writeChunks _ f chunks⟩

theorem isTraffic_onPacket (m : MsgLoop snow) (data : Bytes) :
    ∀ e ∈ (m.onPacket pc cfg now data).2, e.isTraffic := by
  unfold onPacket
  dsimp only
  split
  · simp
  · next f _ => cases f <;> simp [Effect.isTraffic]

theorem isTraffic_onHeartbeat (m : MsgLoop snow) :
    ∀ e ∈ (m.onHeartbeat pc cfg now).2, e.isTraffic := by
  rcases m.onHeartbeat_cases pc cfg now with
    h | h | ⟨_, _, _, -, -, ⟨_, -, h⟩ | ⟨chunks, -, h⟩⟩ <;> rw [h]
  · simp [Effect.isTraffic]
  · simp
  · simp
  · exact List.forall_mem_cons.mpr ⟨rfl, isTraffic_pingChunks _ chunks⟩

theorem step_isTraffic (h : m.step pc cfg now i = some r) : ∀ e ∈ r.2, e.isTraffic := by
  unfold step at h
  split at h
  · split at h <;> cases h
    · simp
    · exact isTraffic_onPacket _ _
    · simp
    · next c =>
      cases c with
      | send frame priority => exact isTraffic_pump _
      | endpointChanged | reconnect | wakeUp => simp [onCmd, Effect.isTraffic]
    · exact isTraffic_onHeartbeat _
  · split at h <;> cases h
    · exact isTraffic_writeChunks _ _ _
    · simp
  · split at h <;> cases h
    · next c => cases c <;> simp [onDrain, Effect.isTraffic]
    · split
      · simp
      · exact isTraffic_pump _
  · split at h <;> cases h
    simp
  · split at h <;> cases h
    · exact isTraffic_pingChunks _ _
    · simp
  · split at h <;> cases h
    simp

end MsgLoop

namespace Loop

variable {snow : Snow} {pc : Postcard} {cfg : WsClientConfig} {now : ℕ} {l : Loop snow}
  {i : Input} {r : Loop snow × List Effect}

theorem machine_step {l' : Loop snow} {t : ℕ × Input} {o : List Effect} :
    (machine pc cfg snow).step l t = some (l', o) ↔
      ∃ r, l.step pc cfg t.1 t.2 = some r ∧ l' = r.1 ∧ o = .resumed t.2 :: r.2 := by
  rw [machine, Option.map_eq_some_iff]
  exact exists_congr fun r => and_congr_right fun _ =>
    ⟨fun e => by cases e; exact ⟨rfl, rfl⟩, fun ⟨e, e'⟩ => by rw [e, e']⟩

/-- What an effect says about the step that has it. -/
def Emits (cfg : WsClientConfig) (l : Loop snow) (i : Input) : Effect → Prop
  | .nextDelay n d => l.phase = .readUrl ∧ d = cfg.backoff.nextDelay n
  | .publish .online => (∃ url noise, l.phase = .authPayload url noise ∧ i = .authPayload none) ∨
      ∃ url noise, l.phase = .authProcess url noise ∧ i = .authOutcome .success
  | .dispatch _ => ∃ url m, l.phase = .online url m
  | _ => True

theorem emits_of_isTraffic {url : Text} {m : MsgLoop snow} (hp : l.phase = .online url m)
    {e : Effect} (he : e.isTraffic) : l.Emits cfg i e := by
  cases e <;> first | trivial | exact ⟨url, m, hp⟩

theorem emits_onUrl (hp : l.phase = .readUrl) (u : Option Text) :
    ∀ e ∈ (l.onUrl cfg now u).2, l.Emits cfg i e := by
  unfold onUrl
  split
  · simp [Emits]
  · split
    · next hd => simp [Emits, hp, hd]
    · next hd =>
      dsimp only
      split
      · split <;> simp [Emits, hp, hd]
      · simp [Emits, dial, hp, hd]

theorem emits_fail (l₁ : Loop snow) (e : Text) : ∀ x ∈ (l₁.fail e).2, l.Emits cfg i x :=
  List.forall_mem_singleton.mpr trivial

theorem emits_authFailed (l₁ : Loop snow) (e : TransportError) :
    ∀ x ∈ (l₁.authFailed e).2, l.Emits cfg i x :=
  emits_fail l₁ _

theorem emits_authChunks (l₁ : Loop snow) (url : Text) (noise : NoiseSession snow)
    (cs : List Bytes) : ∀ x ∈ (l₁.authChunks cfg now url noise cs).2, l.Emits cfg i x := by
  cases cs with
  | nil => exact List.forall_mem_nil _
  | cons c cs => exact List.forall_mem_singleton.mpr trivial

theorem step_emits (h : l.step pc cfg now i = some r) : ∀ e ∈ r.2, l.Emits cfg i e := by
  cases hp : l.phase <;> simp only [step, hp] at h
  case readUrl =>
    split at h <;> cases h
    exact emits_onUrl hp _
  case online url m =>
    obtain ⟨s, hs, rfl⟩ := Option.map_eq_some_iff.mp h
    exact fun e he => emits_of_isTraffic hp (MsgLoop.step_isTraffic hs e he)
  case authPayload url noise =>
    split at h <;> cases h
    next p =>
    unfold onAuthPayload
    split
    · simp [goOnline, Emits, hp]
    · dsimp only
      rw [List.forall_mem_cons]
      constructor
      · trivial
      · split
        · exact emits_authFailed _ _
        · split
          · exact emits_authFailed _ _
          · exact emits_authChunks _ _ _ _
  case authProcess url noise =>
    split at h <;> cases h
    next outcome =>
    cases outcome with
    | success => simp [onAuthOutcome, goOnline, Emits, hp]
    | unauthorized => simp [onAuthOutcome, Emits]
    | failed | retryWithNewPayload => exact emits_authFailed _ _
  case awaitReply url =>
    split at h <;> cases h
    unfold onVersionReply
    split <;> simp [versionFailed, Emits]
  case authSend url noise rest =>
    split at h <;> cases h
    · exact emits_authChunks _ _ _ _
    · exact emits_authFailed _ _
  case authAwait url noise acc deadline =>
    split at h <;> cases h
    · unfold onAuthItem
      split
      · split
        · exact emits_authFailed _ _
        · exact List.forall_mem_nil _
        · split
          · simp [Emits]
          · exact emits_authFailed _ _
      · exact emits_authFailed _ _
    · exact emits_authFailed _ _
  case parked | versionRejected | terminal | manual =>
    unfold waitFor at h
    split at h <;> cases h <;> simp
  all_goals
    repeat' split at h
    all_goals cases h <;> simp [dial, fail, versionFailed, Emits]

end Loop

end NotifiTransport

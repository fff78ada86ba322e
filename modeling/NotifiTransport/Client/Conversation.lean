import NotifiTransport.Client.Drained
import NotifiTransport.Client.Inbound
import NotifiTransport.Client.Steps
import NotifiTransport.Frame.Sealed
import NotifiTransport.Lib.Duplex

/-! # A connection of the client

From the end of the Noise handshake to the end of the connection the loop is one endpoint of the
encrypted channel: it seals the auth frame, the frames of its commands and its Pings, and opens
the packets of the auth response and of everything after it. The message loop starts over with a
new accumulator, and nothing is lost by it.
-/

namespace NotifiTransport

/-- The auth response, or a frame that the message loop dispatches. -/
def Effect.received? : Effect → Option Frame
  | .authFrame f => some f
  | .dispatch f => some f
  | _ => none

/-- The frames that the client has received on its connections, in order. -/
def received (tr : List Effect) : List Frame := tr.filterMap Effect.received?

@[simp] theorem received_append (tr tr' : List Effect) :
    received (tr ++ tr') = received tr ++ received tr' :=
  List.filterMap_append

namespace MsgLoop

variable {snow : Snow}

def seals (pc : Postcard) (m : MsgLoop snow) (i : Input) : List (Sealed pc) :=
  match m.phase, i with
  | .select, .cmd (.send frame priority) =>
    sealNext pc m.noise (m.scheduler.enqueue frame priority)
  | .select, .elapsed => if m.waitingForPong then [] else sealFrame pc m.noise none pingFrame
  | .draining false, .noCmd => sealNext pc m.noise m.scheduler
  | _, _ => []

def opens (m : MsgLoop snow) (i : Input) : List (Bytes × Bytes) :=
  match m.phase, i with
  | .select, .next (some (.ok (.binary data))) => openPacket m.noise data
  | _, _ => []

variable {pc : Postcard} {cfg : WsClientConfig} {now : ℕ} {m : MsgLoop snow} {i : Input}
  {r : Option (MsgLoop snow) × List Effect} {opened : List (Bytes × Bytes)} {fs : List Frame}

theorem received_of_isTraffic {o : List Effect} (h : ∀ e ∈ o, e.isTraffic) :
    received o = dispatched o := by
  apply List.filterMap_congr
  intro e he
  have ht := h e he
  cases e <;> first | rfl | cases ht

theorem heard_onPacket (h : Heard pc cfg.maxPayloadBytes opened fs (some m.accumulator))
    (data : Bytes) :
    Heard pc cfg.maxPayloadBytes (opened ++ openPacket m.noise data)
      (fs ++ received (m.onPacket pc cfg now data).2)
      ((m.onPacket pc cfg now data).1.map (·.accumulator)) := by
  unfold onPacket
  dsimp only
  split
  · simpa [received] using h.more _
  · next noise acc f hr =>
    have hf : received ((f.map Effect.dispatch).toList) = f.toList := by cases f <;> rfl
    rw [hf]
    exact h.receive hr

theorem opens_eq_nil (hi : ∀ data, i ≠ .next (some (.ok (.binary data)))) : m.opens i = [] := by
  unfold opens
  split
  · exact absurd rfl (hi _)
  · rfl

/-- A step of the message loop receives what the packet it opens completes. -/
theorem step_heard (h : m.step pc cfg now i = some r)
    (hh : Heard pc cfg.maxPayloadBytes opened fs (some m.accumulator)) :
    Heard pc cfg.maxPayloadBytes (opened ++ m.opens i) (fs ++ received r.2)
      (r.1.map (·.accumulator)) := by
  by_cases hi : ∃ data, i = .next (some (.ok (.binary data)))
  · obtain ⟨data, rfl⟩ := hi
    have hp : m.phase = .select := by cases hp : m.phase <;> simp [step, hp] at h ⊢
    simp only [step, hp, Option.some.injEq] at h
    subst h
    have ho : m.opens (.next (some (.ok (.binary data)))) = openPacket m.noise data := by
      simp only [opens, hp]
    rw [ho]
    exact heard_onPacket hh data
  · push Not at hi
    rw [opens_eq_nil hi, received_of_isTraffic (step_isTraffic h)]
    have hother := (step_cases h).resolve_left (by
      rintro ⟨data, hd, -⟩
      exact hi data hd)
    obtain ⟨hd, hw⟩ := hother
    rw [hd, List.append_nil, List.append_nil]
    rcases hr : r.1 with _ | m'
    · exact hh.stop
    · rw [Option.map_some, (hw m' hr).1]
      exact hh

end MsgLoop

namespace Loop

variable {snow : Snow}

def seals (pc : Postcard) (l : Loop snow) (i : Input) : List (Sealed pc) :=
  match l.phase, i with
  | .authPayload _ noise, .authPayload (some authBytes) =>
    sealFrame pc noise none ⟨1, .message, authBytes⟩
  | .online _ m, i => m.seals pc i
  | _, _ => []

def opens (l : Loop snow) (i : Input) : List (Bytes × Bytes) :=
  match l.phase, i with
  | .authAwait _ noise _ _, .next (some (.ok (.binary data))) => openPacket noise data
  | .online _ m, i => m.opens i
  | _, _ => []

/-- The accumulator of the encrypted connection, while there is one. -/
def accumulator? (l : Loop snow) : Option FrameAccumulator :=
  match l.phase with
  | .authPayload _ _ | .authSend _ _ _ | .authProcess _ _ => some .new
  | .authAwait _ _ acc _ => some acc
  | .online _ m => some m.accumulator
  | _ => none

/-- The loop until the end of its encrypted connection. -/
def conversation (pc : Postcard) (cfg : WsClientConfig) (snow : Snow) :
    Endpoint (Loop snow) (ℕ × Input) Effect (Sealed pc) (Bytes × Bytes) where
  toMealy := (machine pc cfg snow).restrict fun l _ => l.accumulator?.isSome
  seals l i := l.seals pc i.2
  opens l i := l.opens i.2

variable {pc : Postcard} {cfg : WsClientConfig} {now : ℕ} {l l' : Loop snow} {i : Input}
  {r : Loop snow × List Effect} {opened : List (Bytes × Bytes)} {fs : List Frame}
  {a a' : Option FrameAccumulator} {o : List Effect}

theorem conversation_step {x : ℕ × Input} :
    (conversation pc cfg snow).step l x = some (l', o) ↔
      l.accumulator?.isSome ∧ ∃ r, l.step pc cfg x.1 x.2 = some r ∧ l' = r.1 ∧
        o = .resumed x.2 :: r.2 := by
  rw [← machine_step]
  exact Mealy.step_restrict

theorem opens_eq_nil (hi : ∀ data, i ≠ .next (some (.ok (.binary data)))) : l.opens i = [] := by
  unfold opens
  split
  · exact absurd rfl (hi _)
  · exact MsgLoop.opens_eq_nil hi
  · rfl

/-- Nothing is received, and the connection goes on with the same accumulator or ends. -/
theorem heard_quiet (h : Heard pc cfg.maxPayloadBytes opened fs a) (ho : received o = [])
    (ha : a' = a ∨ a' = none) :
    Heard pc cfg.maxPayloadBytes (opened ++ []) (fs ++ received o) a' := by
  rw [ho, List.append_nil, List.append_nil]
  rcases ha with rfl | rfl
  · exact h
  · exact h.stop

theorem received_authChunks (cfg : WsClientConfig) (now : ℕ) (l : Loop snow) (url : Text)
    (noise : NoiseSession snow) (cs : List Bytes) :
    received (l.authChunks cfg now url noise cs).2 = [] ∧
      (l.authChunks cfg now url noise cs).1.accumulator? = some .new := by
  cases cs <;> exact ⟨rfl, rfl⟩

theorem received_onAuthPayload (pc : Postcard) (cfg : WsClientConfig) (now : ℕ) (l : Loop snow)
    (url : Text) (noise : NoiseSession snow) (p : Option Bytes) :
    received (l.onAuthPayload pc cfg now url noise p).2 = [] ∧
      ((l.onAuthPayload pc cfg now url noise p).1.accumulator? = some .new ∨
        (l.onAuthPayload pc cfg now url noise p).1.accumulator? = none) := by
  unfold onAuthPayload
  split
  · exact ⟨rfl, Or.inl rfl⟩
  · dsimp only
    split
    · exact ⟨rfl, Or.inr rfl⟩
    · split
      · exact ⟨rfl, Or.inr rfl⟩
      · obtain ⟨hr, ha⟩ := received_authChunks cfg now l url _ _
        exact ⟨hr, Or.inl ha⟩

theorem heard_onAuthItem (l : Loop snow) (url : Text) (noise : NoiseSession snow)
    {acc : FrameAccumulator} (h : Heard pc cfg.maxPayloadBytes opened fs (some acc))
    (deadline : ℕ) (data : Bytes) :
    Heard pc cfg.maxPayloadBytes (opened ++ openPacket noise data)
      (fs ++ received (l.onAuthItem pc cfg url noise acc deadline (some (.ok (.binary data)))).2)
      (l.onAuthItem pc cfg url noise acc deadline (some (.ok (.binary data)))).1.accumulator? := by
  simp only [onAuthItem]
  split
  · exact (congrArg (Heard _ _ _ · _) (List.append_nil fs)).mpr (h.more _)
  · next noise' acc' hr => exact h.receive hr
  · next noise' acc' f hr =>
    have hf := h.receive hr
    split
    · rw [receive_complete hr] at hf
      exact hf
    · exact (congrArg (Heard _ _ _ · _) (List.append_nil fs)).mpr (h.more _)

/-- A step of the connection receives what the packet it opens completes. -/
theorem step_heard (h : l.step pc cfg now i = some r) (ha : l.accumulator?.isSome)
    (hh : Heard pc cfg.maxPayloadBytes opened fs l.accumulator?) :
    Heard pc cfg.maxPayloadBytes (opened ++ l.opens i) (fs ++ received r.2) r.1.accumulator? := by
  cases hp : l.phase <;> simp only [accumulator?, hp, Option.isSome_none, Bool.false_eq_true] at ha
  all_goals
    simp only [step, hp] at h
    simp only [accumulator?, hp] at hh
  case authPayload url noise =>
    split at h <;> cases h
    next p =>
    obtain ⟨hr, hacc⟩ := received_onAuthPayload pc cfg now l url noise p
    rw [opens_eq_nil (by simp)]
    exact heard_quiet hh hr hacc
  case authSend url noise rest =>
    split at h <;> cases h <;> rw [opens_eq_nil (by simp)]
    · obtain ⟨hr, hacc⟩ := received_authChunks cfg now l url noise rest
      exact heard_quiet hh hr (Or.inl hacc)
    · exact heard_quiet hh rfl (Or.inr rfl)
  case authAwait url noise acc deadline =>
    split at h <;> cases h
    · next item =>
      by_cases hi : ∃ data, item = some (.ok (.binary data))
      · obtain ⟨data, rfl⟩ := hi
        have ho : l.opens (.next (some (.ok (.binary data)))) = openPacket noise data := by
          simp only [opens, hp]
        rw [ho]
        exact heard_onAuthItem l url noise hh deadline data
      · push Not at hi
        rw [opens_eq_nil (by simpa using hi), onAuthItem]
        · exact heard_quiet hh rfl (Or.inr rfl)
        · exact hi
    · rw [opens_eq_nil (by simp)]
      exact heard_quiet hh rfl (Or.inr rfl)
  case authProcess url noise =>
    split at h <;> cases h
    next outcome =>
    rw [opens_eq_nil (by simp)]
    cases outcome with
    | success => exact heard_quiet hh rfl (Or.inl rfl)
    | unauthorized | failed | retryWithNewPayload => exact heard_quiet hh rfl (Or.inr rfl)
  case online url m =>
    obtain ⟨r, hr, rfl⟩ := Option.map_eq_some_iff.mp h
    have ho : l.opens i = m.opens i := by simp only [opens, hp]
    have hm := MsgLoop.step_heard hr hh
    rw [ho]
    rcases r with ⟨_ | m', o⟩ <;> exact hm

theorem conversation_heard {is : List (ℕ × Input)} {tr : List Effect}
    {t : Recorded (Loop snow) (Sealed pc) (Bytes × Bytes)} {url : Text}
    {noise : NoiseSession snow} (hl : l.phase = .authPayload url noise)
    (h : (conversation pc cfg snow).recorded.run (.fresh l) is = some (t, tr)) :
    Heard pc cfg.maxPayloadBytes t.opened (received tr) t.state.accumulator? := by
  refine Mealy.run_induction (P := fun _ tr t =>
    Heard pc cfg.maxPayloadBytes t.opened (received tr) t.state.accumulator?) ?_ ?_ h
  · rw [accumulator?, Recorded.fresh, hl]
    exact heard_new
  · rintro is tr m x t o - hh hs
    obtain ⟨hst, -, ho⟩ := Endpoint.recorded_step.mp hs
    obtain ⟨ha, r, hr, hs', rfl⟩ := conversation_step.mp hst
    rw [ho, hs', received_append]
    exact step_heard hr ha hh

end Loop

end NotifiTransport

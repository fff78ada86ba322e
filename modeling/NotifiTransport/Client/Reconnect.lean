import NotifiTransport.Client.Endpoint
import NotifiTransport.Client.Online

/-! # The attempt after a command to reconnect

Every place that takes `Reconnect` or `EndpointChanged` treats the attempt counter in its own way.
So the place determines whether the loop goes on by itself from there to the next attempt, and with
which counter it computes the delay.
-/

namespace NotifiTransport

/-- From `Online` to the wait for the user. -/
def Phase.connected {snow : Snow} : Phase snow → Bool
  | .online _ _ | .offline | .checkAuto | .manual => true
  | _ => false

theorem Phase.not_connected {snow : Snow} {p : Phase snow} (h : p.attempting ∨ p.rejected) :
    ¬ p.connected := by
  revert h
  cases p <;> simp [attempting, rejected, connected]

/-- What happens to the loop while no command comes, an endpoint is set and `shutdown` has not been
called. -/
def Input.unhindered : Input → Bool
  | .cmd _ | .cancelled | .cancelFlag true | .url none => false
  | _ => true

namespace Loop

variable {snow : Snow} {pc : Postcard} {cfg : WsClientConfig} {now t : ℕ} {l l' : Loop snow}
  {i : Input} {is : List (ℕ × Input)} {tr o : List Effect} {r : Loop snow × List Effect}

theorem step_url {u : Option Text} (h : l.step pc cfg now (.url u) = some r) :
    l.phase = .readUrl ∧ r = l.onUrl cfg now u := by
  cases hl : l.phase <;> simp only [step, hl, waitFor] at h
  case readUrl => exact ⟨rfl, (Option.some.inj h).symm⟩
  case online url m =>
    cases hm : m.phase <;> simp [MsgLoop.step, hm] at h
  all_goals cases h

theorem Rested.connected (hr : Rested cfg now l i r) (hp : r.1.phase.connected) :
    l.phase.connected ∧ r.1.reconnectAttempt = l.reconnectAttempt := by
  cases hr with
  | flag b => cases b <;> cases hp
  | endpoint u =>
    rcases l.onUrl_cases cfg now u with
      ⟨-, hu⟩ | ⟨url, -, ⟨-, hu⟩ | ⟨d, -, ⟨-, hu⟩ | ⟨-, hu⟩⟩⟩ <;> rw [hu] at hp <;> cases hp
  | idle => exact ⟨hp, rfl⟩
  | woken =>
    rw [woken_phase] at hp
    cases hp
  | released =>
    rcases l.released_phase with hn | ⟨hn, -⟩ <;> rw [hn] at hp <;> cases hp
  | elapsed => cases hp
  | disconnected hl =>
    rw [hl]
    exact ⟨rfl, rfl⟩
  | auto b hl =>
    rw [hl]
    cases b with
    | true => cases hp
    | false => exact ⟨rfl, rfl⟩

theorem step_intoConnected (h : l.step pc cfg now i = some r) (hp : r.1.phase.connected) :
    r.1.reconnectAttempt = 0 ∨ l.phase.connected ∧ r.1.reconnectAttempt = l.reconnectAttempt := by
  rcases step_cases h with ⟨-, ha⟩ | hr | ⟨url, m, s, hl, -, -, ⟨-, hr⟩ | ⟨m', -, hr⟩⟩
  · apply Or.inl
    cases ha with
    | goesOn hn => exact absurd hp (Phase.not_connected (Or.inl hn))
    | rejected hn => exact absurd hp (Phase.not_connected (Or.inr hn))
    | failed => cases hp
    | online => rfl
  · exact Or.inr (hr.connected hp)
  · rw [hl, hr]
    exact Or.inr ⟨rfl, rfl⟩
  · rw [hl, hr]
    exact Or.inr ⟨rfl, rfl⟩

theorem run_connected (h : (machine pc cfg snow).run init is = some (l, tr))
    (hp : l.phase.connected) : l.reconnectAttempt = 0 := by
  refine Mealy.run_invariant (P := fun l => l.phase.connected → l.reconnectAttempt = 0) ?_ h
    (by rintro ⟨⟩) hp
  intro l x l' o hl hs hp
  obtain ⟨r, hr, rfl, -⟩ := machine_step.mp hs
  rcases step_intoConnected hr hp with hn | ⟨hp', hn⟩
  · exact hn
  · rw [hn, hl hp']

/-- The counter of the next attempt after a command to reconnect that ends a wait. -/
def resumesAt (l : Loop snow) : UInt32 :=
  match l.phase with
  | .versionRejected _ => l.reconnectAttempt + 1
  | .parked => l.reconnectAttempt
  | _ => 0

theorem resumesAt_eq_zero : l.resumesAt = 0 ↔
    (∀ url, l.phase = .versionRejected url → l.reconnectAttempt + 1 = 0) ∧
      (l.phase = .parked → l.reconnectAttempt = 0) := by
  unfold resumesAt
  cases l.phase <;> simp

theorem woken_of_control {c : ClientCmd} (hl : l.phase.connected → l.reconnectAttempt = 0)
    (hc : isControl c) (hp : l.phase.receives) : (l.woken c).reconnectAttempt = l.resumesAt := by
  cases hph : l.phase <;> rw [hph] at hp <;> cases hp <;> simp only [woken, resumesAt, hph]
  case parked | versionRejected | terminal => rfl
  case manual => exact hl (by rw [hph]; rfl)
  case backoff => cases c <;> first | rfl | cases hc

/-- Of the waits only the one for an endpoint ignores a control command. -/
theorem wokenBy_of_control {c : ClientCmd} (hc : isControl c) (hp : l.phase.receives) :
    l.wokenBy c ↔ (l.phase = .parked → c = .endpointChanged) := by
  cases hph : l.phase <;> rw [hph] at hp <;> cases hp <;> cases c <;> cases hc <;>
    simp [wokenBy, hph, isEndpointChanged, isControl, isWake]

/-- The attempt begins where the endpoint is read, with the counter at zero. -/
def DialsAtOnce (url : Text) (r : Loop snow × List Effect) : Prop :=
  ∃ d, r.2 = [.nextDelay 0 (some d), .publish .connecting, .dial url]

theorem dialsAtOnce_onUrl (l : Loop snow) (url : Text) :
    DialsAtOnce url (l.onUrl cfg now (some url)) ↔ l.reconnectAttempt = 0 ∧
      ∃ d, cfg.backoff.nextDelay 0 = some d ∧ d.nanos = 0 := by
  unfold DialsAtOnce
  rcases l.onUrl_cases cfg now (some url) with
    ⟨hu, -⟩ | ⟨_, ⟨⟩, ⟨hd, hu⟩ | ⟨d, hd, ⟨hpos, hu⟩ | ⟨hz, hu⟩⟩⟩
  · cases hu
  · rw [hu]
    refine iff_of_false (by simp) ?_
    rintro ⟨hn, d, hd', -⟩
    rw [hn, hd'] at hd
    cases hd
  · rw [hu]
    refine iff_of_false (by split <;> simp) ?_
    rintro ⟨hn, d', hd', hz⟩
    rw [hn, hd'] at hd
    cases hd
    omega
  · rw [hu]
    constructor
    · rintro ⟨d', hd'⟩
      simp only [List.cons.injEq, Effect.nextDelay.injEq, and_true] at hd'
      exact ⟨hd'.1, d, hd'.1 ▸ hd, hz⟩
    · rintro ⟨hn, -⟩
      exact ⟨d, by rw [hn]⟩

/-- If nothing hinders the loop it goes on to read the endpoint, and then it dials at once. -/
def Triggers (pc : Postcard) (cfg : WsClientConfig) (l : Loop snow) : Prop :=
  ∀ is l' v, (∀ x ∈ is, x.2.unhindered) → (machine pc cfg snow).run l is = some (l', v) →
    (∀ n d, .nextDelay n d ∉ v) →
      (∀ t url r, l'.step pc cfg t (.url (some url)) = some r → DialsAtOnce url r) ∧
        ∃ js l'' w, (∀ x ∈ js, x.2.unhindered) ∧ (machine pc cfg snow).run l' js = some (l'', w) ∧
          (∀ n d, .nextDelay n d ∉ w) ∧ l''.phase = .readUrl

theorem nextDelay_mem_onUrl (cfg : WsClientConfig) (now : ℕ) (l : Loop snow) (url : Text) :
    ∃ n d, .nextDelay n d ∈ (l.onUrl cfg now (some url)).2 := by
  rcases l.onUrl_cases cfg now (some url) with
    ⟨hu, -⟩ | ⟨_, -, ⟨-, hu⟩ | ⟨d, -, ⟨-, hu⟩ | ⟨-, hu⟩⟩⟩
  · cases hu
  all_goals
    rw [hu]
    exact ⟨_, _, List.mem_cons_self⟩

/-- From the top of the loop nothing comes before the read of the endpoint. -/
theorem run_fromTop (hp : l.phase = .top) (hu : ∀ x ∈ is, x.2.unhindered)
    (h : (machine pc cfg snow).run l is = some (l', tr)) (hn : ∀ n d, .nextDelay n d ∉ tr) :
    (l'.phase = .top ∨ l'.phase = .readUrl) ∧ l'.reconnectAttempt = l.reconnectAttempt := by
  refine Mealy.run_induction (P := fun is tr l' => (∀ x ∈ is, x.2.unhindered) →
    (∀ n d, .nextDelay n d ∉ tr) → (l'.phase = .top ∨ l'.phase = .readUrl) ∧
      l'.reconnectAttempt = l.reconnectAttempt) (fun _ _ => ⟨Or.inl hp, rfl⟩) ?_ h hu hn
  rintro is tr m ⟨t, i⟩ m' o - ih hs hu hn
  obtain ⟨r, hr, rfl, rfl⟩ := machine_step.mp hs
  have hi : i.unhindered := hu (t, i) (by simp)
  obtain ⟨hph, hk⟩ := ih (fun x hx => hu x (List.mem_append_left _ hx))
    fun n d hm => hn n d (List.mem_append_left _ hm)
  rcases hph with hph | hph <;> simp only [step, hph] at hr <;> split at hr <;> cases hr
  · next b =>
    cases b with
    | false => exact ⟨Or.inr rfl, hk⟩
    | true => cases hi
  · next u =>
    cases u with
    | none => cases hi
    | some url =>
      obtain ⟨n, d, hd⟩ := nextDelay_mem_onUrl cfg t m url
      exact absurd (List.mem_append_right _ (List.mem_cons_of_mem _ hd)) (hn n d)

theorem triggers_of_top (hp : l.phase = .top) : Triggers pc cfg l ↔ l.reconnectAttempt = 0 ∧
    ∃ d, cfg.backoff.nextDelay 0 = some d ∧ d.nanos = 0 := by
  constructor
  · intro ht
    have hs : (machine pc cfg snow).run l [(0, .cancelFlag false)] =
        some (l.goto .readUrl, [.resumed (.cancelFlag false)]) := by
      simp [Mealy.run, machine, step, hp]
    have hread := (ht _ _ _ (by simp [Input.unhindered]) hs (by simp)).1 0 [] _ rfl
    exact (dialsAtOnce_onUrl _ _).mp hread
  · rintro ⟨hk, hd⟩ is l' v hu hr hv
    obtain ⟨hph, hk'⟩ := run_fromTop hp hu hr hv
    constructor
    · intro t url r hs
      obtain ⟨-, rfl⟩ := step_url hs
      exact (dialsAtOnce_onUrl l' url).mpr ⟨hk'.trans hk, hd⟩
    · rcases hph with hph | hph
      · refine ⟨[(0, .cancelFlag false)], l'.goto .readUrl, [.resumed (.cancelFlag false)], ?_, ?_,
          ?_, rfl⟩
        · simp [Input.unhindered]
        · simp [Mealy.run, machine, step, hph]
        · simp
      · exact ⟨[], l', [], by simp, rfl, by simp, hph⟩

/-- A wait for a command is the end of the way. -/
theorem not_triggers_of_waiting (hp : l.phase = .parked ∨ l.phase = .manual) :
    ¬ Triggers pc cfg l := by
  intro ht
  obtain ⟨-, js, l', w, hu, hr, -, hp'⟩ := ht [] l [] (by simp) rfl (by simp)
  cases js with
  | nil =>
    obtain ⟨rfl, -⟩ := Mealy.run_nil.mp hr
    rcases hp with hp | hp <;> rw [hp] at hp' <;> cases hp'
  | cons x js =>
    obtain ⟨t, i⟩ := x
    obtain ⟨m, o, tr, hs, -⟩ := Mealy.run_cons.mp hr
    obtain ⟨r, hs, -⟩ := machine_step.mp hs
    have hi : i.unhindered := hu (t, i) List.mem_cons_self
    rcases hp with hp | hp <;> simp only [step, hp, waitFor] at hs <;> split at hs <;>
      first | cases hi | cases hs

/-- With auto-reconnect off the end of a connection leads to the wait for the user. -/
theorem not_triggers_of_manual {v : List Effect} (is : List (ℕ × Input))
    (hu : ∀ x ∈ is, x.2.unhindered) (h : (machine pc cfg snow).run l is = some (l', v))
    (hv : ∀ n d, .nextDelay n d ∉ v) (hp : l'.phase = .manual) : ¬ Triggers pc cfg l := by
  intro ht
  have hwait : ¬ Triggers pc cfg l' := not_triggers_of_waiting (Or.inr hp)
  apply hwait
  intro js l'' w hu' h' hw
  apply ht (is ++ js) l'' (v ++ w)
  · exact List.forall_mem_append.mpr ⟨hu, hu'⟩
  · exact Mealy.run_append.mpr ⟨l', v, w, h, h', rfl⟩
  · intro n d hm
    exact (List.mem_append.mp hm).elim (hv n d) (hw n d)

/-- After a control command that is taken while `Online`. -/
theorem not_triggers_of_online {url : Text} {m : MsgLoop snow} {c : ClientCmd} (hc : isControl c)
    (hp : l.phase = .online url m) (h : l.step pc cfg now (.cmd c) = some r) :
    ¬ Triggers pc cfg r.1 := by
  simp only [step, hp] at h
  obtain ⟨s, hs, rfl⟩ := Option.map_eq_some_iff.mp h
  unfold MsgLoop.step at hs
  split at hs <;> cases hs <;> cases c <;> cases hc
  all_goals first
    | exact not_triggers_of_manual [(0, .closed), (0, .proceed), (0, .autoReconnect false)]
        (by decide) rfl (by simp) rfl
    | exact not_triggers_of_manual [(0, .closed), (0, .noCmd), (0, .next none), (0, .proceed),
        (0, .autoReconnect false)] (by decide) rfl (by simp) rfl

/-- After a command to reconnect the loop dials at once, exactly if the strategy has no delay for
attempt 0 and the command was taken in a wait: not in that of the version handshake, and in the one
for an endpoint only as `EndpointChanged` and with the counter at zero. -/
theorem run_control_dials_iff {pre : List (ℕ × Input)} {l₁ : Loop snow} {c : ClientCmd}
    {u : List Effect} (h : (machine pc cfg snow).run init pre = some (l, u)) (hc : isControl c)
    (hs : l.step pc cfg now (.cmd c) = some (l₁, o)) :
    Triggers pc cfg l₁ ↔ (∃ d, cfg.backoff.nextDelay 0 = some d ∧ d.nanos = 0) ∧
      (∀ url m, l.phase ≠ .online url m) ∧
      (∀ url, l.phase = .versionRejected url → l.reconnectAttempt + 1 = 0) ∧
      (l.phase = .parked → c = .endpointChanged ∧ l.reconnectAttempt = 0) := by
  rcases step_cmd hs with ⟨url, m, hp⟩ | ⟨hp, hl⟩
  · refine iff_of_false (not_triggers_of_online hc hp hs) ?_
    rintro ⟨-, hn, -⟩
    exact hn url m hp
  have honline : ∀ url m, l.phase ≠ .online url m := by
    intro url m hn
    rw [hn] at hp
    cases hp
  obtain rfl : l₁ = if l.wokenBy c then l.woken c else l := congrArg Prod.fst hl
  have hwoken := wokenBy_of_control hc hp
  split
  · next hw =>
    rw [triggers_of_top (l.woken_phase c), woken_of_control (run_connected h) hc hp,
      resumesAt_eq_zero]
    have hpark := hwoken.mp hw
    tauto
  · next hw =>
    have hpark : l.phase = .parked ∧ c ≠ .endpointChanged := by
      rw [hwoken] at hw
      tauto
    refine iff_of_false (not_triggers_of_waiting (Or.inl hpark.1)) ?_
    rintro ⟨-, -, -, hn⟩
    exact hpark.2 (hn hpark.1).1

/-- The peer closes the connection, and auto-reconnect is off. -/
def awaitingUser (url : Text) : List (ℕ × Input) :=
  goingOnline url ++ [(0, .next none), (0, .proceed), (0, .autoReconnect false)]

/-- `reconnect` in the wait for the user. -/
theorem run_control_dials_iff_manual : ∃ l l₁ u o,
    (machine .wire .sample (Snow.ideal Ideal.genuine)).run init (awaitingUser "ws://a".toList) =
        some (l, u) ∧
      l.phase = .manual ∧ l.step .wire .sample 0 (.cmd .reconnect) = some (l₁, o) ∧
      Triggers .wire .sample l₁ := by
  let x := (machine .wire .sample (Snow.ideal Ideal.genuine)).run init
    (awaitingUser "ws://a".toList)
  have hx : x = some (x.get rfl) := (Option.some_get rfl).symm
  let y := (x.get rfl).1.step .wire .sample 0 (.cmd .reconnect)
  have hy : y = some (y.get rfl) := (Option.some_get rfl).symm
  refine ⟨_, _, _, _, hx, rfl, hy, ?_⟩
  refine (run_control_dials_iff hx rfl hy).mpr ⟨⟨.zero, rfl, rfl⟩, ?_, ?_, ?_⟩
  · rintro url m ⟨⟩
  · rintro url ⟨⟩
  · rintro ⟨⟩

/-- The server rejects the protocol version. -/
def awaitingVersion (url : Text) : List (ℕ × Input) :=
  [(0, .cancelFlag false), (0, .url (some url)), (0, .connected (.ok ())), (0, .sent (.ok ())),
    (0, .next (some (.ok (.text protocolRejected))))]

/-- With the default strategy `reconnect` triggers no attempt in the wait of the version handshake,
nor while `Online`: the loop sleeps there with auto-reconnect on, and waits for another command with
it off. -/
theorem run_control_sleeps :
    (∃ l l₁ l₂ u o v,
      (machine .wire .sample (Snow.ideal Ideal.genuine)).run init
          (awaitingVersion "ws://a".toList) = some (l, u) ∧
        l.step .wire .sample 0 (.cmd .reconnect) = some (l₁, o) ∧
        (machine .wire .sample (Snow.ideal Ideal.genuine)).run l₁
          [(0, .cancelFlag false), (0, .url (some "ws://a".toList))] = some (l₂, v) ∧
        l₂.phase.isBackoff ∧ ¬ Triggers .wire .sample l₁) ∧
    ∃ l l₁ l₂ l₃ u o v w,
      (machine .wire .sample (Snow.ideal Ideal.genuine)).run init (goingOnline "ws://a".toList) =
          some (l, u) ∧
        l.step .wire .sample 0 (.cmd .reconnect) = some (l₁, o) ∧
        (machine .wire .sample (Snow.ideal Ideal.genuine)).run l₁
          [(0, .closed), (0, .proceed), (0, .autoReconnect true), (0, .cancelFlag false),
            (0, .url (some "ws://a".toList))] = some (l₂, v) ∧
        l₂.phase.isBackoff ∧
        (machine .wire .sample (Snow.ideal Ideal.genuine)).run l₁
          [(0, .closed), (0, .proceed), (0, .autoReconnect false)] = some (l₃, w) ∧
        l₃.phase = .manual ∧ ¬ Triggers .wire .sample l₁ := by
  constructor
  · refine ⟨_, _, _, _, _, _, rfl, rfl, rfl, by decide +kernel, ?_⟩
    intro ht
    cases ((triggers_of_top rfl).mp ht).1
  · refine ⟨_, _, _, _, _, _, _, _, rfl, rfl, rfl, by decide +kernel, rfl, rfl, ?_⟩
    exact not_triggers_of_manual [(0, .closed), (0, .proceed), (0, .autoReconnect false)]
      (by decide) rfl (by simp) rfl

end Loop

end NotifiTransport

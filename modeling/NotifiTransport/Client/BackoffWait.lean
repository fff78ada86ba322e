import NotifiTransport.Client.LoopRun

/-! # The length of a backoff

A `Send` or a `WakeUp` that arrives in a backoff makes the loop go back to its top, where it
computes the delay again and sleeps the whole of it. So the deadline of the wait is that of its
latest start, not of its first.
-/

namespace NotifiTransport

/-- The event leaves the loop in its backoff, or makes it start the backoff again. -/
def Event.keepsBackoff : Event → Bool
  | .loop (.cmd (.send _ _)) | .loop (.cmd .wakeUp) | .loop (.cancelFlag false)
  | .loop (.url (some _)) => true
  | .loop _ => false
  | _ => true

/-- The loop is in a backoff, or on its way into the next one. -/
def Phase.backsOff {snow : Snow} : Phase snow → Bool
  | .backoff _ _ | .top | .readUrl => true
  | _ => false

namespace Loop

variable {snow : Snow} {pc : Postcard} {cfg : WsClientConfig} {now : ℕ} {l : Loop snow}
  {i : Input} {r : Loop snow × List Effect} {delay : Duration}

/-- A step on the way through a backoff: the wait ends early, or it starts anew where the endpoint
is read. -/
theorem step_backsOff (hd : cfg.backoff.nextDelay l.reconnectAttempt = some delay)
    (hpos : 0 < delay.nanos) (hp : l.phase.backsOff) (hi : (Event.loop i).keepsBackoff)
    (h : l.step pc cfg now i = some r) :
    (∀ u, i ≠ .url u) ∧ (r.1 = l.goto .top ∨ r.1 = l.goto .readUrl) ∨
      ∃ url, i = .url (some url) ∧ r.1 = l.goto (.backoff url (now + delay.nanos)) := by
  cases hl : l.phase <;> rw [hl] at hp <;> cases hp <;> simp only [step, hl] at h
  case top =>
    split at h <;> cases h
    next b =>
    cases b with
    | true => cases hi
    | false => exact Or.inl ⟨by simp, Or.inr rfl⟩
  case readUrl =>
    split at h <;> cases h
    next u =>
    cases u with
    | none => cases hi
    | some url =>
      refine Or.inr ⟨url, rfl, ?_⟩
      simp only [onUrl, hd, hpos, if_true]
  case backoff url d =>
    split at h <;> cases h
    · cases hi
    · cases hi
    · next c =>
      refine Or.inl ⟨by simp, Or.inl ?_⟩
      cases c with
      | send | wakeUp => rfl
      | endpointChanged | reconnect => cases hi

end Loop

namespace WsClient

variable {snow : Snow} {pc : Postcard} {cfg : WsClientConfig} {parses : Text → Bool}
  {m w w' : WsClient snow} {e : Event} {es : List Event} {tr o : List Output} {n : UInt32}
  {delay : Duration} {t : ℕ}

/-- The loop backs off, with this value of the attempt counter. -/
def BacksOff (n : UInt32) (w : WsClient snow) : Prop :=
  w.loop.phase.backsOff ∧ w.loop.reconnectAttempt = n

/-- The loop does not wait beyond `t`. -/
def WaitsUntil (t : ℕ) (w : WsClient snow) : Prop :=
  ∀ url d, w.loop.phase = .backoff url d → d ≤ t

/-- If the endpoint is read again, then not later than at `t`. -/
def RereadBy (t : ℕ) (w : WsClient snow) : Event → Prop
  | .loop (.url _) => w.now ≤ t
  | _ => True

/-- One step of the wait: only the read of the endpoint sets a deadline. -/
theorem step_backsOff (hd : cfg.backoff.nextDelay n = some delay) (hpos : 0 < delay.nanos)
    (hw : BacksOff n w) (he : e.keepsBackoff) (h : w.step pc cfg parses e = some (w', o)) :
    BacksOff n w' ∧ (WaitsUntil (t + delay.nanos) w →
      (WaitsUntil (t + delay.nanos) w' ↔ RereadBy t w e)) := by
  obtain ⟨hp, rfl⟩ := hw
  rcases step_loop_cases h with ⟨hl, -, hne⟩ | ⟨i, r, rfl, -, hr, hl, -⟩
  · unfold BacksOff WaitsUntil
    rw [hl]
    refine ⟨⟨hp, rfl⟩, fun hwt => iff_of_true hwt ?_⟩
    cases e with
    | loop i => exact absurd rfl (hne i)
    | _ => trivial
  · unfold BacksOff WaitsUntil
    rw [hl]
    rcases Loop.step_backsOff hd hpos hp he hr with ⟨hi, hx | hx⟩ | ⟨url, rfl, hx⟩ <;> rw [hx]
    · refine ⟨⟨rfl, rfl⟩, fun _ => iff_of_true ?_ ?_⟩
      · rintro url d ⟨⟩
      · cases i with
        | url u => exact absurd rfl (hi u)
        | _ => trivial
    · refine ⟨⟨rfl, rfl⟩, fun _ => iff_of_true ?_ ?_⟩
      · rintro url d ⟨⟩
      · cases i with
        | url u => exact absurd rfl (hi u)
        | _ => trivial
    · -- the deadline of the new wait
      refine ⟨⟨rfl, rfl⟩, fun _ => ?_⟩
      constructor
      · intro hwt
        have hle : w.now + delay.nanos ≤ t + delay.nanos := hwt url _ rfl
        change w.now ≤ t
        omega
      · intro (hle : w.now ≤ t)
        rintro _ _ ⟨⟩
        omega

theorem run_backsOff (hd : cfg.backoff.nextDelay n = some delay) (hpos : 0 < delay.nanos)
    (hw : BacksOff n m) (he : ∀ e ∈ es, e.keepsBackoff)
    (h : (machine pc cfg parses snow).run m es = some (w, tr)) : BacksOff n w := by
  induction es generalizing m tr with
  | nil =>
    obtain ⟨rfl, -⟩ := Mealy.run_nil.mp h
    exact hw
  | cons e es ih =>
    obtain ⟨m', o, v, hs, hr, -⟩ := Mealy.run_cons.mp h
    apply ih
    · exact (step_backsOff (t := 0) hd hpos hw (he e List.mem_cons_self) hs).1
    · intro e' he'
      exact he e' (List.mem_cons_of_mem _ he')
    · exact hr

/-- A backoff that begins at `m.now` never extends beyond its first deadline, exactly if the loop
does not come back to read the endpoint at a later time. -/
theorem run_backoff_deadline_iff {i : Input} {m₀ : WsClient snow} {url : Text} {d : ℕ}
    (hs : m.step pc cfg parses (.loop i) = some (m₀, o)) (hp : m₀.loop.phase = .backoff url d)
    (hd : cfg.backoff.nextDelay m.loop.reconnectAttempt = some delay)
    (he : ∀ e ∈ es, e.keepsBackoff)
    (h : (machine pc cfg parses snow).run m₀ es = some (w, tr)) :
    (∀ pre post, es = pre ++ post → ∀ n v, (machine pc cfg parses snow).run m₀ pre = some (n, v) →
      WaitsUntil (m.now + delay.nanos) n) ↔
        (machine pc cfg parses snow).Along (RereadBy m.now) m₀ es := by
  obtain ⟨hpos, hu⟩ : 0 < delay.nanos ∧
      m₀.loop = m.loop.goto (.backoff url (m.now + delay.nanos)) := by
    rcases step_loop_cases hs with ⟨-, -, hne⟩ | ⟨j, r, -, -, hr, hl, -⟩
    · exact absurd rfl (hne i)
    · rw [hl] at hp
      obtain ⟨delay', -, -, hd', hpos, rfl, hgoto⟩ := Loop.step_backoff hr hp
      cases hd.symm.trans hd'
      exact ⟨hpos, hl.trans hgoto⟩
  apply Mealy.run_always_iff
  · intro url' d hb
    rw [hu] at hb
    cases hb
    exact le_rfl
  · intro pre e post hes n u n' o' hn hw hstep
    subst hes
    have hback : BacksOff m.loop.reconnectAttempt n := by
      refine run_backsOff hd hpos ?_ ?_ hn
      · unfold BacksOff
        rw [hu]
        exact ⟨rfl, rfl⟩
      · intro e' he'
        exact he e' (List.mem_append_left _ he')
    exact (step_backsOff hd hpos hback (he e (by simp)) hstep).2 hw
  · exact h

/-- The sample configuration with the same short delay before every attempt. -/
def constantly : WsClientConfig :=
  { WsClientConfig.sample with
    backoff := ⟨ConstantBackoff.nextDelay ⟨⟨2, by decide⟩⟩⟩ }

/-- A command that is taken at once does not delay the attempt. -/
theorem run_backoff_deadline_iff_wake : ∃ m m₀ w tr o v,
    (machine .wire constantly (fun _ => true) (Snow.ideal Ideal.genuine)).run new
        [.setEndpoint "ws://a".toList, .loop (.cancelFlag false)] = some (m, tr) ∧
      m.step .wire constantly (fun _ => true) (.loop (.url (some "ws://a".toList))) = some (m₀, o) ∧
      (machine .wire constantly (fun _ => true) (Snow.ideal Ideal.genuine)).run m₀
        [.wake, .loop (.cmd .wakeUp), .loop (.cancelFlag false),
          .loop (.url (some "ws://a".toList))] = some (w, v) ∧
      WaitsUntil (m.now + 2) w := by
  let m : WsClient (Snow.ideal Ideal.genuine) :=
    { (new : WsClient (Snow.ideal Ideal.genuine)) with
      loop := ⟨.readUrl, 0, false⟩
      url := some "ws://a".toList
      calls := [.endpointChanged] }
  let m₀ : WsClient (Snow.ideal Ideal.genuine) :=
    { m with loop := ⟨.backoff "ws://a".toList 2, 0, false⟩ }
  obtain ⟨o, hs⟩ : ∃ o, m.step .wire constantly (fun _ => true)
      (.loop (.url (some "ws://a".toList))) = some (m₀, o) := ⟨_, rfl⟩
  obtain ⟨v, hr⟩ : ∃ v, (machine .wire constantly (fun _ => true) (Snow.ideal Ideal.genuine)).run m₀
      [.wake, .loop (.cmd .wakeUp), .loop (.cancelFlag false),
        .loop (.url (some "ws://a".toList))] = some (m₀, v) := ⟨_, rfl⟩
  refine ⟨m, m₀, m₀, _, o, v, rfl, hs, hr, ?_⟩
  refine (run_backoff_deadline_iff hs rfl rfl (by decide) hr).mpr ?_ _ [] rfl _ _ hr
  -- only the last event reads the endpoint
  refine Mealy.along_cons.mpr ⟨trivial, ?_⟩
  rintro _ _ ⟨⟩
  refine Mealy.along_cons.mpr ⟨trivial, ?_⟩
  rintro _ _ ⟨⟩
  refine Mealy.along_cons.mpr ⟨trivial, ?_⟩
  rintro _ _ ⟨⟩
  refine Mealy.along_cons.mpr ⟨le_rfl, ?_⟩
  rintro _ _ ⟨⟩
  exact Mealy.along_nil

/-- The loop of a client whose first connection attempt has failed, about to read its endpoint. -/
def failedFirst (url : Text) : List Event :=
  [.setEndpoint url, .loop (.cancelFlag false), .loop (.url (some url)),
    .loop (.connected (.error [])), .loop (.cancelFlag false)]

/-- One second into the wait for two seconds, `wake` moves the next attempt to three seconds. -/
theorem run_backoff_delayed : ∃ m m₀ w tr o v,
    (machine .wire .sample (fun _ => true) (Snow.ideal Ideal.genuine)).run new
        (failedFirst "ws://a".toList) = some (m, tr) ∧
      m.step .wire .sample (fun _ => true) (.loop (.url (some "ws://a".toList))) = some (m₀, o) ∧
      m₀.loop.phase.backsOff ∧ m₀.loop.deadline = some (m.now + 2000000000) ∧
      (machine .wire .sample (fun _ => true) (Snow.ideal Ideal.genuine)).run m₀
        [.tick 1000000000, .wake, .loop (.cmd .wakeUp), .loop (.cancelFlag false),
          .loop (.url (some "ws://a".toList))] = some (w, v) ∧
      w.loop.phase.backsOff ∧ w.loop.deadline = some (m.now + 3000000000) := by
  let M := machine .wire .sample (fun _ => true) (Snow.ideal Ideal.genuine)
  have hrun : (M.run new (failedFirst "ws://a".toList)).any (fun x =>
      (x.1.step .wire .sample (fun _ => true) (.loop (.url (some "ws://a".toList)))).any fun y =>
        decide (y.1.loop.phase.backsOff ∧ y.1.loop.deadline = some (x.1.now + 2000000000)) &&
          (M.run y.1 [.tick 1000000000, .wake, .loop (.cmd .wakeUp), .loop (.cancelFlag false),
            .loop (.url (some "ws://a".toList))]).any fun z =>
              z.1.loop.phase.backsOff ∧ z.1.loop.deadline = some (x.1.now + 3000000000)) =
      true := by
    decide +kernel
  obtain ⟨⟨m, tr⟩, hx, hrun⟩ := (Option.any_eq_true _ _).mp hrun
  obtain ⟨⟨m₀, o⟩, hy, hrun⟩ := (Option.any_eq_true _ _).mp hrun
  obtain ⟨hm, hrun⟩ := Bool.and_eq_true_iff.mp hrun
  obtain ⟨⟨w, v⟩, hz, hw⟩ := (Option.any_eq_true _ _).mp hrun
  obtain ⟨hp, hd⟩ := of_decide_eq_true hm
  exact ⟨m, m₀, w, tr, o, v, hx, hy, hp, hd, hz, of_decide_eq_true hw⟩

end WsClient

end NotifiTransport

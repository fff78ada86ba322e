import NotifiTransport.Client.Attempts
import NotifiTransport.Crypto.Ideal
import NotifiTransport.Frame.Postcard
import NotifiTransport.Lib.Past

/-! # The way to Online

Whatever a run of the connection loop publishes as `Online` has been earned on the socket
opened since the latest `Connecting`. The evidence grows with the phase: each phase between
the dial and the authentication knows which outputs the trace must contain. Between two
publications of `Online` the loop passes through the end of the message loop.
-/

namespace NotifiTransport

/-- Since the latest `Connecting` no timer has fired, and `need` has happened in this order. -/
def Since (need tr : List Effect) : Prop :=
  ∃ before seg, tr = before ++ .publish .connecting :: seg ∧ .publish .connecting ∉ seg ∧
    .resumed .elapsed ∉ seg ∧ need.Sublist seg

theorem Since.extend {need need' tr o : List Effect} (h : Since need tr)
    (hc : .publish .connecting ∉ o) (he : .resumed .elapsed ∉ o) (hn : need'.Sublist o) :
    Since (need ++ need') (tr ++ o) := by
  obtain ⟨before, seg, rfl, hc', he', hs⟩ := h
  refine ⟨before, seg ++ o, by simp, ?_, ?_, hs.append hn⟩
  · simp [hc, hc']
  · simp [he, he']

theorem Since.keep {need tr o : List Effect} (h : Since need tr)
    (hc : .publish .connecting ∉ o) (he : .resumed .elapsed ∉ o) : Since need (tr ++ o) := by
  simpa using h.extend hc he (List.nil_sublist o)

theorem Since.dial {url : Text} {tr o : List Effect}
    (h : [.publish .connecting, .dial url] <:+ o) : Since [.dial url] (tr ++ o) := by
  obtain ⟨before, rfl⟩ := h
  exact ⟨tr ++ before, [.dial url], by simp, by simp, by simp, List.Sublist.refl _⟩

/-- The socket is open and the server has accepted the protocol version. -/
def acceptedBy (url reply : Text) : List Effect :=
  [.dial url, .resumed (.connected (.ok ())), .resumed (.next (some (.ok (.text reply))))]

/-- The two ways to pass the authentication. -/
def Authorised (auth : List Effect) : Prop :=
  auth = [.resumed (.authPayload none)] ∨
    ∃ p f, f.id = 1 ∧ auth = [.resumed (.authPayload (some p)), .authFrame f, .process f.data,
      .resumed (.authOutcome .success)]

namespace Loop

variable {snow : Snow} {pc : Postcard} {cfg : WsClientConfig} {now : ℕ} {l l' : Loop snow}
  {i : Input} {is : List (ℕ × Input)} {o tr u v : List Effect}

/-- What the trace shows in each phase of a connection attempt. -/
def Gate (tr : List Effect) : Phase snow → Prop
  | .connecting url => Since [.dial url] tr
  | .sendHello url | .awaitReply url =>
    Since [.dial url, .resumed (.connected (.ok ()))] tr
  | .noiseKeypair url | .noiseSendE url _ | .noiseAwait url _ | .noiseSendS url _ =>
    ∃ reply, protocolAccepted <:+: reply ∧ Since (acceptedBy url reply) tr
  | .authPayload url _ =>
    ∃ reply, protocolAccepted <:+: reply ∧ Since (acceptedBy url reply ++ [.noiseFinished]) tr
  | .authSend url _ _ | .authAwait url _ _ _ =>
    ∃ reply p, protocolAccepted <:+: reply ∧
      Since (acceptedBy url reply ++ [.noiseFinished] ++ [.resumed (.authPayload (some p))]) tr
  | .authProcess url _ =>
    ∃ reply p f, protocolAccepted <:+: reply ∧ f.id = 1 ∧
      Since (acceptedBy url reply ++ [.noiseFinished] ++ [.resumed (.authPayload (some p))] ++
        [.authFrame f, .process f.data]) tr
  | _ => True

theorem versionReply_accepted {m : WsItem} (h : versionReply m = .accepted) :
    ∃ reply, m = some (.ok (.text reply)) ∧ protocolAccepted <:+: reply := by
  unfold versionReply at h
  split at h
  · next reply =>
    split at h
    · next hr => exact ⟨reply, rfl, hr⟩
    · split at h <;> cases h
  all_goals cases h

variable {r : Loop snow × List Effect}

theorem gate_versionFailed (tr : List Effect) (url : Text) (s : Option ConnectionState) :
    Gate tr (l.versionFailed url s).1.phase := by
  unfold versionFailed
  split <;> trivial

theorem gate_onUrl (tr : List Effect) (u : Option Text) :
    Gate (tr ++ .resumed (.url u) :: (l.onUrl cfg now u).2) (l.onUrl cfg now u).1.phase := by
  unfold onUrl
  split
  · trivial
  · split
    · trivial
    · dsimp only
      split
      · trivial
      · exact Since.dial ⟨[_, _], rfl⟩

theorem gate_authChunks {url reply : Text} {p : Bytes} {noise : NoiseSession snow}
    (hr : protocolAccepted <:+: reply)
    (hs : Since (acceptedBy url reply ++ [.noiseFinished] ++ [.resumed (.authPayload (some p))]) tr)
    (hc : .publish .connecting ∉ o) (he : .resumed .elapsed ∉ o) (chunks : List Bytes) :
    Gate (tr ++ (o ++ (l.authChunks cfg now url noise chunks).2))
      (l.authChunks cfg now url noise chunks).1.phase := by
  unfold authChunks
  split <;> exact ⟨reply, p, hr, hs.keep (by simp [hc]) (by simp [he])⟩

theorem gate_onAuthItem {url reply : Text} {p : Bytes} {noise : NoiseSession snow}
    {acc : FrameAccumulator} {deadline : ℕ} (hr : protocolAccepted <:+: reply)
    (hs : Since (acceptedBy url reply ++ [.noiseFinished] ++ [.resumed (.authPayload (some p))]) tr)
    (m : WsItem) :
    Gate (tr ++ .resumed (.next m) :: (l.onAuthItem pc cfg url noise acc deadline m).2)
      (l.onAuthItem pc cfg url noise acc deadline m).1.phase := by
  unfold onAuthItem
  split
  · split
    · trivial
    · exact ⟨reply, p, hr, hs.keep (by simp) (by simp)⟩
    · next f _ =>
      split
      · next hf => exact ⟨reply, p, f, hr, hf, hs.extend (by simp) (by simp) (by simp)⟩
      · trivial
  · trivial

theorem gate_onAuthPayload {url reply : Text} {noise : NoiseSession snow}
    (hr : protocolAccepted <:+: reply)
    (hs : Since (acceptedBy url reply ++ [.noiseFinished]) tr) (p : Option Bytes) :
    Gate (tr ++ .resumed (.authPayload p) :: (l.onAuthPayload pc cfg now url noise p).2)
      (l.onAuthPayload pc cfg now url noise p).1.phase := by
  unfold onAuthPayload
  split
  · trivial
  · next p =>
    have hs' : Since (acceptedBy url reply ++ [Effect.noiseFinished] ++
        [Effect.resumed (.authPayload (some p))])
        (tr ++ [Effect.resumed (.authPayload (some p)), Effect.publish .waitingForAuth]) :=
      hs.extend (by simp) (by simp) (by simp)
    dsimp only
    split
    · trivial
    · split
      · trivial
      · simpa using gate_authChunks hr hs' (o := []) (by simp) (by simp) _

/-- A step of an attempt adds to the evidence what its phase asks for. -/
theorem step_gate_attempt (hp : l.phase.attempting) (h : l.step pc cfg now i = some r)
    (hg : Gate tr l.phase) : Gate (tr ++ .resumed i :: r.2) r.1.phase := by
  cases hl : l.phase <;> rw [hl] at hp <;> cases hp <;> simp only [step, hl] at h hg
  case connecting =>
    split at h <;> cases h
    · simpa [goto, Gate] using Since.extend hg (by simp) (by simp) (by simp)
    · trivial
  case sendHello url =>
    split at h <;> cases h
    · exact hg.keep (by simp) (by simp)
    · exact gate_versionFailed _ _ _
  case awaitReply url =>
    split at h <;> cases h
    unfold onVersionReply
    split
    · next hm =>
      obtain ⟨reply, rfl, hr⟩ := versionReply_accepted hm
      exact ⟨reply, hr, hg.extend (by simp) (by simp) (by simp)⟩
    · trivial
    · exact gate_versionFailed _ _ _
  case noiseKeypair url =>
    obtain ⟨reply, hr, hs⟩ := hg
    split at h
    · split at h <;> cases h
      · trivial
      · exact ⟨reply, hr, hs.keep (by simp) (by simp)⟩
    · cases h
  case noiseSendE url noise =>
    obtain ⟨reply, hr, hs⟩ := hg
    split at h <;> cases h
    · exact ⟨reply, hr, hs.keep (by simp) (by simp)⟩
    · trivial
  case noiseAwait url noise =>
    obtain ⟨reply, hr, hs⟩ := hg
    split at h
    · split at h <;> cases h
      · trivial
      · exact ⟨reply, hr, hs.keep (by simp) (by simp)⟩
    · cases h
  case noiseSendS url noise =>
    obtain ⟨reply, hr, hs⟩ := hg
    split at h
    · split at h <;> cases h
      · trivial
      · exact ⟨reply, hr, hs.extend (by simp) (by simp) (by simp)⟩
    · cases h
      trivial
    · cases h
  case authPayload url noise =>
    obtain ⟨reply, hr, hs⟩ := hg
    split at h <;> cases h
    exact gate_onAuthPayload hr hs _
  case authSend url noise rest =>
    obtain ⟨reply, p, hr, hs⟩ := hg
    split at h <;> cases h
    · exact gate_authChunks hr hs (o := [_]) (by simp) (by simp) rest
    · trivial
  case authAwait url noise acc deadline =>
    obtain ⟨reply, p, hr, hs⟩ := hg
    split at h <;> cases h
    · exact gate_onAuthItem hr hs _
    · trivial
  case authProcess url noise =>
    split at h <;> cases h
    next outcome => cases outcome <;> trivial

/-- Between attempts only a dial asks for evidence, and it brings its own. -/
theorem Rested.gate (hr : Rested cfg now l i r) : Gate (tr ++ .resumed i :: r.2) r.1.phase := by
  cases hr with
  | flag b | auto b => cases b <;> trivial
  | endpoint u => exact gate_onUrl tr u
  | idle hp => cases hl : l.phase <;> rw [hl] at hp <;> cases hp <;> trivial
  | woken =>
    rw [woken_phase]
    trivial
  | released => rcases l.released_phase with hn | ⟨hn, -⟩ <;> rw [hn] <;> trivial
  | elapsed => exact Since.dial ⟨[_], rfl⟩
  | disconnected => trivial

/-- Every step keeps the evidence of the phase it leads to. -/
theorem step_gate (h : l.step pc cfg now i = some r) (hg : Gate tr l.phase) :
    Gate (tr ++ .resumed i :: r.2) r.1.phase := by
  rcases step_cases h with ⟨hp, -⟩ | hr | ⟨url, m, s, -, -, -, ⟨-, hr⟩ | ⟨m', -, hr⟩⟩
  · exact step_gate_attempt hp h hg
  · exact hr.gate
  · rw [hr]
    trivial
  · rw [hr]
    trivial

theorem run_gate (h : (machine pc cfg snow).run init is = some (l, tr)) : Gate tr l.phase := by
  refine Mealy.run_induction (P := fun _ tr l => Gate tr l.phase)
    (show Gate [] (init : Loop snow).phase from trivial) ?_ h
  rintro is tr l i l' o - hg hs
  obtain ⟨r, hr, rfl, rfl⟩ := machine_step.mp hs
  exact step_gate hr hg

/-- A step publishes `Online` last, and at the end of the authentication only. -/
theorem step_online (h : l.step pc cfg now i = some r) (ho : .publish .online ∈ r.2) :
    (∃ url noise, r = goOnline cfg now url noise) ∧
      ((∃ url noise, l.phase = .authPayload url noise ∧ i = .authPayload none) ∨
        ∃ url noise, l.phase = .authProcess url noise ∧ i = .authOutcome .success) := by
  have he : l.Emits cfg i (.publish .online) := step_emits h _ ho
  refine ⟨?_, he⟩
  rcases he with ⟨url, noise, hp, rfl⟩ | ⟨url, noise, hp, rfl⟩
  all_goals
    simp only [step, hp] at h
    cases h
    exact ⟨url, noise, rfl⟩

/-- `Online` is the state of the loop, or the connection has been wound up since. -/
def Interrupted (tr : List Effect) (p : Phase snow) : Prop :=
  ∀ a b, tr = a ++ .publish .online :: b →
    (p = .offline ∨ ∃ url m, p = .online url m) ∨
      [.publish .disconnected, .clearPending] <:+: b

theorem step_interrupted (h : l.step pc cfg now i = some r) (hi : Interrupted tr l.phase) :
    Interrupted (tr ++ .resumed i :: r.2) r.1.phase := by
  intro a b hab
  rcases List.append_eq_append_iff.mp hab with ⟨c, rfl, hc⟩ | ⟨c, rfl, hc⟩
  · -- published by this step
    have ho : .publish .online ∈ r.2 := by
      have hm : .publish .online ∈ Effect.resumed i :: r.2 := by simp [hc]
      simpa using hm
    obtain ⟨⟨url, noise, rfl⟩, -⟩ := step_online h ho
    exact Or.inl (Or.inr ⟨url, _, rfl⟩)
  · rcases c with _ | ⟨x, c⟩
    · -- published by this step, as its first effect
      cases hc
    · obtain ⟨rfl, rfl⟩ := List.cons.inj hc
      rcases hi a c rfl with (hp | ⟨url, m, hp⟩) | hb
      · apply Or.inr
        simp only [step, hp] at h
        split at h <;> cases h
        exact ⟨c ++ [.resumed .proceed], [], by simp⟩
      · apply Or.inl
        simp only [step, hp] at h
        obtain ⟨s, -, rfl⟩ := Option.map_eq_some_iff.mp h
        dsimp only [goto]
        split
        · exact Or.inl rfl
        · exact Or.inr ⟨_, _, rfl⟩
      · exact Or.inr (hb.trans (List.infix_append' [] c _))

theorem run_interrupted (h : (machine pc cfg snow).run init is = some (l, tr)) :
    Interrupted tr l.phase := by
  refine Mealy.run_induction (P := fun _ tr l => Interrupted tr l.phase) (by intro a b; simp) ?_ h
  rintro is tr l i l' o - hi hs
  obtain ⟨r, hr, rfl, rfl⟩ := machine_step.mp hs
  exact step_interrupted hr hi

/-- The step that publishes `Online` does so right after its input. -/
theorem run_entersOnline
    (h : (machine pc cfg snow).run init is = some (l, u ++ .publish .online :: v)) :
    ∃ pre m tr i, (machine pc cfg snow).run init pre = some (m, tr) ∧ u = tr ++ [.resumed i] ∧
      ((∃ url noise, m.phase = .authPayload url noise ∧ i = .authPayload none) ∨
        ∃ url noise, m.phase = .authProcess url noise ∧ i = .authOutcome .success) := by
  obtain ⟨pre, i, post, m, tr, m', o₁, o₂, -, hr, hs, rfl⟩ := Mealy.run_split h
  obtain ⟨r, hst, rfl, ho⟩ := machine_step.mp hs
  have hmem : .publish .online ∈ r.2 := by
    have hm : .publish .online ∈ Effect.resumed i.2 :: r.2 := by rw [← ho]; simp
    simpa using hm
  obtain ⟨⟨url, noise, rfl⟩, hfrom⟩ := step_online hst hmem
  refine ⟨pre, m, tr, i.2, hr, ?_, hfrom⟩
  rcases o₁ with _ | ⟨x, _ | ⟨y, o₁⟩⟩
  · cases ho
  · cases ho
    rfl
  · simp [goOnline] at ho

/-- Every `Online` is preceded by an accepted version, a finished Noise handshake and a
successful authentication on the same socket, and by the end of the previous `Online`. -/
theorem run_online_earned
    (h : (machine pc cfg snow).run init is = some (l, u ++ .publish .online :: v)) :
    (∃ url reply auth, protocolAccepted <:+: reply ∧ Authorised auth ∧
      Since (acceptedBy url reply ++ [.noiseFinished] ++ auth) u) ∧
    ∀ a b, u = a ++ .publish .online :: b → [.publish .disconnected, .clearPending] <:+: b := by
  obtain ⟨pre, m, tr, i, hr, rfl, hfrom⟩ := run_entersOnline h
  have hg := run_gate hr
  constructor
  · rcases hfrom with ⟨url, noise, hp, hi⟩ | ⟨url, noise, hp, hi⟩ <;> rw [hp] at hg
    · obtain ⟨reply, hrep, hs⟩ := hg
      exact ⟨url, reply, _, hrep, Or.inl rfl, hs.extend (by simp) (by simp [hi]) (by simp [hi])⟩
    · obtain ⟨reply, p, f, hrep, hf, hs⟩ := hg
      refine ⟨url, reply, _, hrep, Or.inr ⟨p, f, hf, rfl⟩, ?_⟩
      have hs' := hs.extend (o := [.resumed i]) (by simp) (by simp [hi]) (List.Sublist.refl _)
      simpa [hi] using hs'
  · intro a b hab
    -- the same trace without the last input
    obtain ⟨b, rfl, rfl⟩ := (Trace.concat_eq_split.mp hab).resolve_left (by simp)
    rcases run_interrupted hr a b rfl with hp | hb
    · rcases hfrom with ⟨url, noise, hp', -⟩ | ⟨url, noise, hp', -⟩ <;> simp [hp'] at hp
    · exact hb.trans (List.prefix_append b _).isInfix

/-- The inputs of a first attempt that succeeds against a server without authentication. -/
def goingOnline (url : Text) : List (ℕ × Input) :=
  [(0, .cancelFlag false), (0, .url (some url)), (0, .connected (.ok ())), (0, .sent (.ok ())),
    (0, .next (some (.ok (.text protocolAccepted)))), (0, .keypair (.ok (List.replicate 32 7))),
    (0, .sent (.ok ())),
    (0, .next (some (.ok (.binary (Ideal.messageTwo (List.replicate 32 2)))))),
    (0, .sent (.ok ())), (0, .authPayload none)]

theorem run_online_earned_goingOnline : ∃ l u,
    (machine .wire .sample (Snow.ideal Ideal.genuine)).run init (goingOnline "ws://a".toList) =
        some (l, u ++ [.publish .online]) ∧
      ∃ url reply auth, protocolAccepted <:+: reply ∧ Authorised auth ∧
        Since (acceptedBy url reply ++ [.noiseFinished] ++ auth) u := by
  let r := (machine .wire .sample (Snow.ideal Ideal.genuine)).run init
    (goingOnline "ws://a".toList)
  have h : r = some ((r.get rfl).1, (r.get rfl).2.dropLast ++ [.publish .online]) := rfl
  exact ⟨_, _, h, (run_online_earned h).1⟩

end Loop

end NotifiTransport

import NotifiTransport.Client.Online

/-! # New credentials from the auth handler

`RetryWithNewPayload` fails the attempt like any other error, and its bytes are dropped: nothing
in the state of the loop depends on them. The auth frame of the next attempt carries what
`auth_payload` returns then.
-/

namespace NotifiTransport

namespace Loop

variable {snow : Snow} {pc : Postcard} {cfg : WsClientConfig} {now t : ℕ} {l l' : Loop snow}
  {r r' : Loop snow × List Effect} {mid : List (ℕ × Input)} {v : List Effect} {p : Bytes}
  {q : Option Bytes} {f : Frame}

/-- The auth frame that a step of an attempt builds. -/
def authFrame (l : Loop snow) (i : Input) : Option Frame :=
  match l.phase, i with
  | .authPayload _ _, .authPayload (some authBytes) => some ⟨1, .message, authBytes⟩
  | _, _ => none

/-- The step to `r` encodes `f`, encrypts it and begins to send the chunks, or fails in that. -/
def Transmits (pc : Postcard) (cfg : WsClientConfig) (now : ℕ) (l : Loop snow) (f : Frame)
    (r : Loop snow × List Effect) : Prop :=
  (∃ e, r.1 = l.retry ∧ r.2 = [.publish .waitingForAuth, .publish (.error e)]) ∨
    ∃ url noise noise' encoded chunks, l.phase = .authPayload url noise ∧
      encodeFrame pc f = .ok encoded ∧ noise.encryptChunked encoded = (noise', .ok chunks) ∧
      r = ((l.authChunks cfg now url noise' chunks).1,
        .publish .waitingForAuth :: (l.authChunks cfg now url noise' chunks).2)

theorem step_authFrame (h : l.step pc cfg now (.authPayload q) = some r)
    (hf : l.authFrame (.authPayload q) = some f) : l.Transmits pc cfg now f r := by
  cases hl : l.phase <;> simp only [authFrame, hl] at hf
  case authPayload url noise =>
    cases q with
    | none => cases hf
    | some authBytes =>
      cases hf
      simp only [step, hl] at h
      cases h
      unfold onAuthPayload
      dsimp only
      split
      · exact Or.inl ⟨_, rfl, rfl⟩
      · next encoded he =>
        split
        · exact Or.inl ⟨_, rfl, rfl⟩
        · next noise' chunks hc =>
          exact Or.inr ⟨url, noise, noise', encoded, chunks, hl, he, hc, rfl⟩
  all_goals cases hf

/-- The step on `auth_payload` is taken where the attempt has finished its Noise handshake. -/
theorem phase_of_authPayload (h : l.step pc cfg now (.authPayload q) = some r) :
    ∃ url noise, l.phase = .authPayload url noise := by
  cases hl : l.phase <;> simp only [step, hl, waitFor] at h
  case authPayload url noise => exact ⟨url, noise, rfl⟩
  case online url m => cases hm : m.phase <;> simp [MsgLoop.step, hm] at h
  all_goals cases h

/-- The new payload has no influence on the step, and so on nothing that follows. -/
theorem step_retryWithNewPayload (p p' : Bytes) :
    l.step pc cfg now (.authOutcome (.retryWithNewPayload p)) =
      l.step pc cfg now (.authOutcome (.retryWithNewPayload p')) := by
  cases hl : l.phase <;> simp only [step, hl, waitFor]
  case authProcess url noise => rfl
  case online url m => cases hm : m.phase <;> simp [MsgLoop.step, hm]

/-- After `RetryWithNewPayload(p)` the loop goes on as with any other bytes. An attempt that then
reaches the auth step transmits the frame that it builds, and this frame carries `p` exactly if the
handler's `auth_payload` returns `p` there. -/
theorem run_new_payload_iff
    (ho : l.step pc cfg now (.authOutcome (.retryWithNewPayload p)) = some r)
    (hm : (machine pc cfg snow).run r.1 mid = some (l', v))
    (hs : l'.step pc cfg t (.authPayload q) = some r') :
    (∀ p', ∃ r₁, l.step pc cfg now (.authOutcome (.retryWithNewPayload p')) = some r₁ ∧
        (machine pc cfg snow).run r₁.1 mid = some (l', v)) ∧
      (∀ f, l'.authFrame (.authPayload q) = some f → l'.Transmits pc cfg t f r') ∧
      (l'.authFrame (.authPayload q) = some ⟨1, .message, p⟩ ↔ q = some p) := by
  constructor
  · intro p'
    exact ⟨r, step_retryWithNewPayload p p' ▸ ho, hm⟩
  constructor
  · intro f hf
    exact step_authFrame hs hf
  · obtain ⟨url, noise, hl⟩ := phase_of_authPayload hs
    cases q <;> simp [authFrame, hl]

/-- The inputs of an attempt up to the auth step. -/
def reachingAuth : List (ℕ × Input) := (goingOnline "ws://a".toList).dropLast

/-- The answer of a server to the auth frame. -/
def authReply : Bytes := toLE32 3 ++ [1, 0, 0] ++ Ideal.tag 0

/-- The first attempt fails with a new payload, the loop waits out its backoff and gets to the auth
step of the second. -/
def retrying : List (ℕ × Input) :=
  [(0, .cancelFlag false), (0, .url (some "ws://a".toList)), (0, .elapsed)] ++ reachingAuth.drop 2

theorem run_new_payload_iff_second : ∃ l l' u r v r',
    (machine .wire .sample (Snow.ideal Ideal.genuine)).run init (reachingAuth ++
        [(0, .authPayload (some [1])), (0, .sent (.ok ())),
          (0, .next (some (.ok (.binary authReply))))]) = some (l, u) ∧
      l.step .wire .sample 0 (.authOutcome (.retryWithNewPayload [2])) = some r ∧
      (machine .wire .sample (Snow.ideal Ideal.genuine)).run r.1 retrying = some (l', v) ∧
      l'.step .wire .sample 0 (.authPayload (some [2])) = some r' ∧
      (l'.authFrame (.authPayload (some [2])) = some ⟨1, .message, [2]⟩ ↔
        some ([2] : Bytes) = some [2]) := by
  let M := machine .wire .sample (Snow.ideal Ideal.genuine)
  have hrun : (M.run init (reachingAuth ++ [(0, .authPayload (some [1])), (0, .sent (.ok ())),
      (0, .next (some (.ok (.binary authReply))))])).any (fun x =>
        (x.1.step .wire .sample 0 (.authOutcome (.retryWithNewPayload [2]))).any fun y =>
          (M.run y.1 retrying).any fun z =>
            (z.1.step .wire .sample 0 (.authPayload (some [2]))).isSome) = true := by
    decide +kernel
  obtain ⟨⟨l, u⟩, hx, hrun⟩ := (Option.any_eq_true _ _).mp hrun
  obtain ⟨r, hy, hrun⟩ := (Option.any_eq_true _ _).mp hrun
  obtain ⟨⟨l', v⟩, hz, hrun⟩ := (Option.any_eq_true _ _).mp hrun
  obtain ⟨r', hr⟩ := Option.isSome_iff_exists.mp hrun
  exact ⟨l, l', u, r, v, r', hx, hy, hz, hr, (run_new_payload_iff hy hz hr).2.2⟩

/-- The handler returns the old payload again: the second attempt does not carry the new one. -/
theorem run_new_payload_dropped : ∃ l l' u r v,
    (machine .wire .sample (Snow.ideal Ideal.genuine)).run init (reachingAuth ++
        [(0, .authPayload (some [1])), (0, .sent (.ok ())),
          (0, .next (some (.ok (.binary authReply))))]) = some (l, u) ∧
      l.step .wire .sample 0 (.authOutcome (.retryWithNewPayload [2])) = some r ∧
      (machine .wire .sample (Snow.ideal Ideal.genuine)).run r.1 retrying = some (l', v) ∧
      l'.authFrame (.authPayload (some [1])) = some ⟨1, .message, [1]⟩ := by
  let M := machine .wire .sample (Snow.ideal Ideal.genuine)
  have hrun : (M.run init (reachingAuth ++ [(0, .authPayload (some [1])), (0, .sent (.ok ())),
      (0, .next (some (.ok (.binary authReply))))])).any (fun x =>
        (x.1.step .wire .sample 0 (.authOutcome (.retryWithNewPayload [2]))).any fun y =>
          (M.run y.1 retrying).any fun z =>
            z.1.authFrame (.authPayload (some [1])) = some ⟨1, .message, [1]⟩) = true := by
    decide +kernel
  obtain ⟨⟨l, u⟩, hx, hrun⟩ := (Option.any_eq_true _ _).mp hrun
  obtain ⟨r, hy, hrun⟩ := (Option.any_eq_true _ _).mp hrun
  obtain ⟨⟨l', v⟩, hz, hf⟩ := (Option.any_eq_true _ _).mp hrun
  exact ⟨l, l', u, r, v, hx, hy, hz, of_decide_eq_true hf⟩

end Loop

end NotifiTransport

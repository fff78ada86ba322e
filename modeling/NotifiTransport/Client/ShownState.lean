import NotifiTransport.Client.Reconnect
import NotifiTransport.Client.Returns
import NotifiTransport.Lib.Past

/-! # The state shown during a backoff

A backoff publishes `Reconnecting` only if the client has been `Online` before. Otherwise the state
stays what the last attempt has left, and an attempt that fails in the Noise handshake leaves
nothing: its caller only counts the failure.
-/

namespace NotifiTransport

/-- The loop will try again by itself. -/
def ConnectionState.retries : ConnectionState → Bool
  | .error _ | .reconnecting _ _ => true
  | _ => false

/-- How the loop comes to be without a connection. -/
inductive Exit where
  /-- An attempt has failed, and its error is published. -/
  | reported
  /-- No error is published: a failed Noise handshake, a rejection, or a missing endpoint. -/
  | hidden
  deriving DecidableEq

/-- The Noise handshake. -/
def Phase.inNoise {snow : Snow} : Phase snow → Bool
  | .noiseKeypair _ | .noiseSendE _ _ | .noiseAwait _ _ | .noiseSendS _ _ => true
  | _ => false

namespace Loop

variable {snow : Snow} {pc : Postcard} {cfg : WsClientConfig} {now : ℕ} {l : Loop snow}
  {i : Input} {r : Loop snow × List Effect} {s : ConnectionState} {xs : List Exit}

/-- The exits in the step on `i` from `l` to `l'`. -/
def exits (l : Loop snow) (i : Input) (l' : Loop snow) : List Exit :=
  if l.phase.attempting then
    if l'.phase.isTop then [if l.phase.inNoise then .hidden else .reported]
    else if l'.phase.rejected then [.hidden] else []
  else if i = .url none then [.hidden] else []

/-- The last exit was reported. -/
def Reported : List Exit → Prop := Trace.Since (· = .reported) (· = .hidden)

theorem reported_concat {x : Exit} :
    Reported (xs ++ [x]) ↔ x = .reported ∨ x ≠ .hidden ∧ Reported xs := Trace.since_concat

/-- The step fails with an error that it publishes last. -/
def Reports (r : Loop snow × List Effect) : Prop :=
  r.1.phase = .top ∧ ∃ o e, r.2 = o ++ [.publish (.error e)]

/-- The step publishes no state in which the loop would try again. -/
def Hides (r : Loop snow × List Effect) : Prop := ∀ s, .publish s ∈ r.2 → ¬ s.retries

/-- The step reports its failure, or it publishes nothing of the kind and fails only in the Noise
handshake. -/
def Shows (inNoise : Bool) (r : Loop snow × List Effect) : Prop :=
  inNoise = false ∧ Reports r ∨ (r.1.phase.isTop → inNoise) ∧ Hides r

theorem shows_fail (l : Loop snow) (e : Text) : Shows false (l.fail e) :=
  Or.inl ⟨rfl, rfl, [], e, rfl⟩

theorem shows_of_hides {b : Bool} (hp : r.1.phase.isTop → b) (h : Hides r) : Shows b r :=
  Or.inr ⟨hp, h⟩

theorem shows_goOnline (url : Text) (noise : NoiseSession snow) :
    Shows false (goOnline cfg now url noise) := by
  apply shows_of_hides
  · rintro ⟨⟩
  · simp [Hides, goOnline, ConnectionState.retries]

theorem shows_authChunks (l : Loop snow) (url : Text) (noise : NoiseSession snow)
    (chunks : List Bytes) (o : List Effect) (ho : ∀ s, .publish s ∈ o → ¬ s.retries) :
    Shows false ((l.authChunks cfg now url noise chunks).1,
      o ++ (l.authChunks cfg now url noise chunks).2) := by
  cases chunks <;> apply shows_of_hides
  · rintro ⟨⟩
  · simpa [Hides, authChunks] using ho
  · rintro ⟨⟩
  · simpa [Hides, authChunks] using ho

theorem shows_onAuthPayload (l : Loop snow) (url : Text) (noise : NoiseSession snow)
    (p : Option Bytes) : Shows false (l.onAuthPayload pc cfg now url noise p) := by
  unfold onAuthPayload
  split
  · exact shows_goOnline url noise
  · dsimp only
    split
    · exact Or.inl ⟨rfl, rfl, [_], _, rfl⟩
    · split
      · exact Or.inl ⟨rfl, rfl, [_], _, rfl⟩
      · exact l.shows_authChunks url _ _ [_] (by simp [ConnectionState.retries])

theorem shows_onAuthItem (l : Loop snow) (url : Text) (noise : NoiseSession snow)
    (acc : FrameAccumulator) (deadline : ℕ) (m : WsItem) :
    Shows false (l.onAuthItem pc cfg url noise acc deadline m) := by
  unfold onAuthItem
  split
  · split
    · exact l.shows_fail _
    · exact shows_of_hides (by rintro ⟨⟩) (by simp [Hides])
    · split
      · exact shows_of_hides (by rintro ⟨⟩) (by simp [Hides])
      · exact l.shows_fail _
  · exact l.shows_fail _

theorem shows_onVersionReply (l : Loop snow) (url : Text) (v : VersionReply) :
    Shows false (l.onVersionReply cfg url v) := by
  cases v with
  | accepted | rejected =>
    exact shows_of_hides (by rintro ⟨⟩) (by simp [Hides, onVersionReply, ConnectionState.retries])
  | failed e => exact l.shows_fail e

theorem shows_onAuthOutcome (l : Loop snow) (url : Text) (noise : NoiseSession snow)
    (outcome : AuthOutcome) : Shows false (l.onAuthOutcome cfg now url noise outcome) := by
  cases outcome with
  | success => exact shows_goOnline url noise
  | unauthorized =>
    exact shows_of_hides (by rintro ⟨⟩) (by simp [Hides, onAuthOutcome, ConnectionState.retries])
  | failed | retryWithNewPayload => exact l.shows_fail _

/-- What each step of an attempt shows. -/
theorem step_shows (ha : l.phase.attempting) (h : l.step pc cfg now i = some r) :
    Shows l.phase.inNoise r := by
  cases hl : l.phase <;> rw [hl] at ha <;> cases ha <;> simp only [step, hl] at h
  case connecting url =>
    split at h <;> cases h
    · exact shows_of_hides (by rintro ⟨⟩) (by simp [Hides, ConnectionState.retries])
    · exact l.shows_fail _
  case sendHello url =>
    split at h <;> cases h
    · exact shows_of_hides (by rintro ⟨⟩) (by simp [Hides])
    · exact l.shows_fail _
  case awaitReply url =>
    split at h <;> cases h
    exact l.shows_onVersionReply url _
  case noiseKeypair | noiseAwait =>
    split at h
    · split at h <;> cases h <;> exact shows_of_hides (fun _ => rfl) (by simp [Hides])
    · cases h
  case noiseSendE =>
    split at h <;> cases h <;> exact shows_of_hides (fun _ => rfl) (by simp [Hides])
  case noiseSendS =>
    split at h
    · split at h <;> cases h <;> exact shows_of_hides (fun _ => rfl) (by simp [Hides])
    · cases h
      exact shows_of_hides (fun _ => rfl) (by simp [Hides])
    · cases h
  case authPayload url noise =>
    split at h <;> cases h
    exact l.shows_onAuthPayload url noise _
  case authSend url noise rest =>
    split at h <;> cases h
    · exact l.shows_authChunks url noise rest [] (by simp)
    · exact l.shows_fail _
  case authAwait url noise acc deadline =>
    split at h <;> cases h
    · exact l.shows_onAuthItem url noise acc deadline _
    · exact l.shows_fail _
  case authProcess url noise =>
    split at h <;> cases h
    exact l.shows_onAuthOutcome url noise _

theorem Hides.published (h : Hides r) (hs : ¬ s.retries) : ¬ (published s r.2).retries := by
  rcases published_cases s r.2 with he | hm
  · rwa [he]
  · exact h _ hm

/-- The state `s` that a client shows which has not been `Online`, after the exits `xs`. -/
structure Shown (l : Loop snow) (s : ConnectionState) (xs : List Exit) : Prop where
  connected : ¬ l.phase.connected
  attempting : l.phase.attempting → ¬ s.retries
  between : l.phase.approaching ∨ l.phase.rejected → (s.retries ↔ Reported xs)

theorem Shown.of_phase (hc : ¬ l.phase.connected) (ha : ¬ l.phase.attempting)
    (hb : ¬ l.phase.approaching) (hr : ¬ l.phase.rejected) : Shown l s xs where
  connected := hc
  attempting h := absurd h ha
  between h := absurd h (not_or.mpr ⟨hb, hr⟩)

/-- A state that is shown after an exit, with the loop between attempts. -/
theorem shown_exit {x : Exit} (hp : l.phase.approaching ∨ l.phase.rejected)
    (hs : s.retries ↔ x = .reported) : Shown l s (xs ++ [x]) where
  connected := by
    revert hp
    cases l.phase <;> simp [Phase.approaching, Phase.rejected, Phase.connected]
  attempting h := by
    revert hp h
    cases l.phase <;> simp [Phase.approaching, Phase.rejected, Phase.attempting]
  between _ := by
    rw [hs, reported_concat]
    cases x <;> simp

theorem Shown.attempt (hs : Shown l s xs) (ha : l.phase.attempting)
    (h : l.step pc cfg now i = some r) :
    r.1.everConnected ∨ Shown r.1 (published s r.2) (xs ++ l.exits i r.1) := by
  have hexits : l.exits i r.1 =
      if r.1.phase.isTop then [if l.phase.inNoise then .hidden else .reported]
      else if r.1.phase.rejected then [.hidden] else [] := by
    rw [exits, if_pos ha]
  rw [hexits]
  rcases step_shows ha h with ⟨hn, htop, o, e, ho⟩ | ⟨hn, hh⟩
  · apply Or.inr
    rw [hn, ho, published_append, htop]
    apply shown_exit (Or.inl (by rw [htop]; rfl))
    simp [published, Effect.published?, ConnectionState.retries]
  · have hret := hh.published (hs.attempting ha)
    cases step_attempted ha h with
    | @goesOn phase o hp =>
      have hnot : phase.isTop = false ∧ phase.rejected = false ∧ phase.connected = false ∧
          phase.approaching = false := by
        cases phase <;> cases hp <;> exact ⟨rfl, rfl, rfl, rfl⟩
      simp only [goto, hnot, Bool.false_eq_true, if_false, List.append_nil]
      exact Or.inr ⟨by simp [hnot], fun _ => hret, by simp [hnot]⟩
    | failed =>
      have hnoise : l.phase.inNoise := hn rfl
      rw [hnoise]
      exact Or.inr (shown_exit (Or.inl rfl) (by simpa using hret))
    | @rejected phase s' o hp =>
      have htop : phase.isTop = false := by
        cases phase <;> cases hp <;> rfl
      simp only [goto, htop, hp, Bool.false_eq_true, if_false, if_true]
      exact Or.inr (shown_exit (Or.inr hp) (by simpa using hret))
    | online => exact Or.inl rfl

theorem exits_eq_nil {l' : Loop snow} (ha : ¬ l.phase.attempting) (hi : i ≠ .url none) :
    l.exits i l' = [] := by
  rw [exits, if_neg ha, if_neg hi]

theorem Shown.keep {l' : Loop snow} (hs : Shown l s xs)
    (hp : l.phase.approaching ∨ l.phase.rejected) (hc : ¬ l'.phase.connected)
    (ha : ¬ l'.phase.attempting) : Shown l' s xs where
  connected := hc
  attempting h := absurd h ha
  between _ := hs.between hp

theorem shown_connecting {url : Text} : Shown (l.goto (.connecting url)) .connecting xs where
  connected := Bool.false_ne_true
  attempting _ := Bool.false_ne_true
  between h := by rcases h with h | h <;> cases h

theorem Shown.endpoint (hs : Shown l s xs) (hl : l.phase = .readUrl) (u : Option Text) :
    (l.onUrl cfg now u).1.everConnected ∨ Shown (l.onUrl cfg now u).1
      (published s (l.onUrl cfg now u).2) (xs ++ l.exits (.url u) (l.onUrl cfg now u).1) := by
  have hex : ∀ l' : Loop snow, l.exits (.url u) l' = if u = none then [.hidden] else [] := by
    intro l'
    simp [exits, hl, Phase.attempting]
  have hp : l.phase.approaching ∨ l.phase.rejected := Or.inl (by rw [hl]; rfl)
  rw [hex]
  rcases l.onUrl_cases cfg now u with
    ⟨rfl, hu⟩ | ⟨url, rfl, ⟨-, hu⟩ | ⟨d, -, ⟨-, hu⟩ | ⟨-, hu⟩⟩⟩ <;> rw [hu]
  · refine Or.inr (shown_exit (Or.inl rfl) ?_)
    simp [published, Effect.published?, ConnectionState.retries]
  · apply Or.inr
    apply Shown.of_phase <;> exact Bool.false_ne_true
  · by_cases he : l.everConnected
    · exact Or.inl he
    · rw [if_neg he, if_neg (by simp), List.append_nil]
      exact Or.inr (hs.keep hp Bool.false_ne_true Bool.false_ne_true)
  · exact Or.inr shown_connecting

theorem Shown.between_of_receives (hs : Shown l s xs) (hp : l.phase.receives) :
    l.phase.approaching ∨ l.phase.rejected := by
  have hc := hs.connected
  revert hp hc
  cases l.phase <;> simp [Phase.receives, Phase.connected, Phase.approaching, Phase.rejected]

theorem Shown.rest (hs : Shown l s xs) (hr : Rested cfg now l i r) :
    r.1.everConnected ∨ Shown r.1 (published s r.2) (xs ++ l.exits i r.1) := by
  cases hr with
  | flag b hl =>
    rw [exits_eq_nil (by simp [hl, Phase.attempting]) (by simp), List.append_nil]
    apply Or.inr
    apply hs.keep (Or.inl (by rw [hl]; rfl)) <;> cases b <;> exact Bool.false_ne_true
  | endpoint u hl => exact hs.endpoint hl u
  | idle hp =>
    rw [exits_eq_nil (Phase.not_attempting_of_receives hp) (by simp), List.append_nil]
    exact Or.inr hs
  | woken hp =>
    rw [exits_eq_nil (Phase.not_attempting_of_receives hp) (by simp), List.append_nil]
    apply Or.inr
    apply hs.keep (hs.between_of_receives hp) <;> rw [woken_phase] <;> exact Bool.false_ne_true
  | released hp =>
    rw [exits_eq_nil (Phase.not_attempting_of_receives hp) (by simp), List.append_nil]
    apply Or.inr
    apply hs.keep (hs.between_of_receives hp) <;>
      rcases l.released_phase with hn | ⟨hn, -⟩ <;> rw [hn] <;> exact Bool.false_ne_true
  | elapsed hl =>
    rw [exits_eq_nil (by simp [hl, Phase.attempting]) (by simp), List.append_nil]
    exact Or.inr shown_connecting
  | disconnected hl => exact absurd (by rw [hl]; rfl) hs.connected
  | auto b hl => exact absurd (by rw [hl]; rfl) hs.connected

theorem Shown.step (hs : Shown l s xs) (h : l.step pc cfg now i = some r) :
    r.1.everConnected ∨ Shown r.1 (published s r.2) (xs ++ l.exits i r.1) := by
  rcases step_cases h with ⟨ha, -⟩ | hr | ⟨url, m, x, hl, -⟩
  · exact hs.attempt ha h
  · exact hs.rest hr
  · exact absurd (by rw [hl]; rfl) hs.connected

theorem step_everConnected (he : l.everConnected) (h : l.step pc cfg now i = some r) :
    r.1.everConnected := by
  rcases step_cases h with ⟨-, ha⟩ | hr | ⟨url, m, x, -, -, -, ⟨-, hr⟩ | ⟨m', -, hr⟩⟩
  · cases ha with
    | goesOn | failed | rejected => exact he
    | online => rfl
  · cases hr with
    | flag | idle | elapsed | disconnected => exact he
    | endpoint u =>
      rcases l.onUrl_cases cfg now u with
        ⟨-, hu⟩ | ⟨url, -, ⟨-, hu⟩ | ⟨d, -, ⟨-, hu⟩ | ⟨-, hu⟩⟩⟩ <;> rw [hu] <;> exact he
    | @woken c =>
      unfold woken
      split
      · cases c <;> exact he
      all_goals exact he
    | released =>
      unfold released
      split <;> exact he
    | auto b => cases b <;> exact he
  · rw [hr]
    exact he
  · rw [hr]
    exact he

/-- The exits of the step on `x`. -/
def exitsOn (l : Loop snow) (x : ℕ × Input) (l' : Loop snow) : List Exit := l.exits x.2 l'

theorem run_shown {is : List (ℕ × Input)} {tr : List Effect}
    (h : (machine pc cfg snow).run init is = some (l, tr))
    (hx : ((machine pc cfg snow).watch exitsOn).run init is = some (l, xs)) :
    l.everConnected ∨ Shown l (published .disconnected tr) xs := by
  refine Mealy.run_watch_induction
    (P := fun tr xs l => l.everConnected ∨ Shown l (published .disconnected tr) xs) ?_ ?_ h hx
  · refine Or.inr ⟨Bool.false_ne_true, by rintro ⟨⟩, fun _ => ?_⟩
    exact iff_of_false Bool.false_ne_true Trace.not_since_nil
  · intro tr xs m x m' o ih hs
    obtain ⟨r, hstep, rfl, rfl⟩ := machine_step.mp hs
    rw [published_append]
    rcases ih with he | hshown
    · exact Or.inl (step_everConnected he hstep)
    · exact hshown.step hstep

/-- A backoff shows `Error` or `Reconnecting` exactly if the client has been `Online` before, or its
last exit was reported. -/
theorem run_backoff_retries_iff {is : List (ℕ × Input)} {tr : List Effect} {url : Text} {d : ℕ}
    (h : (machine pc cfg snow).run init is = some (l, tr))
    (hx : ((machine pc cfg snow).watch exitsOn).run init is = some (l, xs))
    (hs : l.step pc cfg now i = some r) (hp : r.1.phase = .backoff url d) :
    (published .disconnected (tr ++ r.2)).retries ↔ l.everConnected ∨ Reported xs := by
  obtain ⟨delay, hl, rfl, hd, hpos, -, -⟩ := step_backoff hs hp
  obtain ⟨-, rfl⟩ := step_url hs
  rw [published_append]
  rcases l.onUrl_cases cfg now (some url) with
    ⟨hu, -⟩ | ⟨_, ⟨⟩, ⟨hn, -⟩ | ⟨d', hd', ⟨-, hu⟩ | ⟨hz, -⟩⟩⟩
  · cases hu
  · cases hd.symm.trans hn
  · rw [hu]
    by_cases he : l.everConnected
    · rw [if_pos he]
      exact iff_of_true rfl (Or.inl he)
    · rw [if_neg he]
      have hshown := (run_shown h hx).resolve_left he
      have hiff := hshown.between (Or.inl (by rw [hl]; rfl))
      simpa [he, published, Effect.published?] using hiff
  · cases hd.symm.trans hd'
    omega

variable (pc now l) in
/-- The first backoff of a client. -/
theorem step_firstBackoff (url : Text) {d : Duration} (hl : l.phase = .readUrl)
    (hd : cfg.backoff.nextDelay l.reconnectAttempt = some d) (hpos : 0 < d.nanos)
    (he : l.everConnected = false) : l.step pc cfg now (.url (some url)) =
      some (l.goto (.backoff url (now + d.nanos)), [.nextDelay l.reconnectAttempt (some d)]) := by
  simp only [step, hl, onUrl, hd, hpos, he, if_true, Bool.false_eq_true, if_false]

theorem nextDelay_sample_one :
    WsClientConfig.sample.backoff.nextDelay 1 = some (.ofSecs 2) := by decide +kernel

/-- The first attempt is refused. -/
def refused : List (ℕ × Input) :=
  [(0, .cancelFlag false), (0, .url (some "ws://a".toList)),
    (0, .connected (.error "refused".toList)), (0, .cancelFlag false)]

theorem run_backoff_retries_iff_refused : ∃ l tr xs r url d,
    (machine .wire .sample (Snow.ideal Ideal.genuine)).run init refused = some (l, tr) ∧
      ((machine .wire .sample (Snow.ideal Ideal.genuine)).watch exitsOn).run init refused =
        some (l, xs) ∧
      l.step .wire .sample 0 (.url (some "ws://a".toList)) = some r ∧
      r.1.phase = .backoff url d ∧ (published .disconnected (tr ++ r.2)).retries := by
  let M := machine .wire .sample (Snow.ideal Ideal.genuine)
  let x := M.run init refused
  have hx : x = some (x.get rfl) := (Option.some_get rfl).symm
  let y := (M.watch exitsOn).run init refused
  have hy : y = some ((x.get rfl).1, [.reported]) := rfl
  have hz := step_firstBackoff .wire 0 (x.get rfl).1 "ws://a".toList rfl nextDelay_sample_one
    (by decide) rfl
  have hreported : Reported [.reported] := ⟨[], _, [], rfl, rfl, by simp⟩
  have hretries := (run_backoff_retries_iff hx hy hz rfl).mpr (Or.inr hreported)
  exact ⟨_, _, _, _, _, _, hx, hy, hz, rfl, hretries⟩

/-- The connection breaks in the Noise handshake of the first attempt. -/
def broken : List (ℕ × Input) :=
  (goingOnline "ws://a".toList).take 6 ++ [(0, .sent (.error [])), (0, .cancelFlag false)]

/-- The client shows `Authenticating` while it sleeps. -/
theorem run_backoff_authenticating : ∃ l tr r url d,
    (machine .wire .sample (Snow.ideal Ideal.genuine)).run init broken = some (l, tr) ∧
      l.step .wire .sample 0 (.url (some "ws://a".toList)) = some r ∧
      r.1.phase = .backoff url d ∧ published .disconnected (tr ++ r.2) = .authenticating := by
  let M := machine .wire .sample (Snow.ideal Ideal.genuine)
  let x := M.run init broken
  have hx : x = some (x.get rfl) := (Option.some_get rfl).symm
  have hz := step_firstBackoff .wire 0 (x.get rfl).1 "ws://a".toList rfl nextDelay_sample_one
    (by decide) rfl
  exact ⟨_, _, _, _, _, hx, hz, rfl, rfl⟩

end Loop

end NotifiTransport

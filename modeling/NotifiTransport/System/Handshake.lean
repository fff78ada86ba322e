import NotifiTransport.Client.Flow
import NotifiTransport.Crypto.Exchange
import NotifiTransport.Lib.Socket
import NotifiTransport.Server.Conversation
import NotifiTransport.Server.Versions

/-! # The handshake of a client and a server

The client's loop and `accept_ws_session` on the two ends of a reliable socket, from the moment it
is open until both have their keys. In whatever order the two take their steps, neither gives up or
waits in vain, and after ten steps both are in transport mode with each other.
-/

namespace NotifiTransport

/-- `start_send` of the client's stream; `poll_next` goes back. -/
def WsMessage.message : WsMessage → Message
  | .text t => .text t
  | .binary b => .binary b

theorem WsMessage.message_injective : Function.Injective message := by
  rintro (_ | _) (_ | _) h <;> cases h <;> rfl

def Effect.wire? (e : Effect) : Option Message := e.message?.map WsMessage.message

def Input.reads? : Input → Option Message
  | .next (some (.ok m)) => some m.message
  | _ => none

/-- An operation of the client on its socket fails, or the generation of its key. -/
def Input.fails : Input → Bool
  | .connected (.error _) | .sent (.error _) | .keypair (.error _) => true
  | .next none | .next (some (.error _)) => true
  | _ => false

def SessionInput.reads? : SessionInput → Option Message
  | .next (some (.ok m)) => some m
  | _ => none

def SessionInput.fails : SessionInput → Bool
  | .next none | .next (some (.error _)) | .sent (.error _) => true
  | _ => false

def ServingEffect.message? {snow : Snow} : ServingEffect snow → Option Message
  | .send m => some m
  | .session e => e.message?
  | _ => none

variable {snow : Snow}

namespace Loop

/-- The steps of the client that are left. -/
def handshakeLeft (l : Loop snow) : ℕ :=
  match l.phase with
  | .connecting _ => 7
  | .sendHello _ => 6
  | .awaitReply _ => 5
  | .noiseKeypair _ => 4
  | .noiseSendE _ _ => 3
  | .noiseAwait _ _ => 2
  | .noiseSendS _ _ => 1
  | _ => 0

/-- The loop on an open socket until it has its keys. -/
def handshake (pc : Postcard) (cfg : WsClientConfig) (snow : Snow) :
    Endpoint (Loop snow) (ℕ × Input) Effect Message Message :=
  ((machine pc cfg snow).restrict fun l _ => 0 < l.handshakeLeft).onSocket Effect.wire?
    fun i => i.2.reads?

end Loop

namespace Serving

/-- The steps of the server that are left. -/
def handshakeLeft : Serving snow → ℕ
  | accepting .hello => 3
  | accepting (.key _) => 2
  | accepting (.final _) => 1
  | _ => 0

/-- A socket on the server until it has its keys; nothing that is written fails. -/
def handshake (pc : Postcard) (scfg : WsServerConfig) (snow : Snow) :
    Endpoint (Serving snow) (ℕ × SessionInput) (ServingEffect snow) Message Message :=
  ((machine pc scfg (fun _ => .ok ()) snow).restrict fun p _ => 0 < p.handshakeLeft).onSocket
    ServingEffect.message? fun i => i.2.reads?

end Serving

/-- Both ends during the handshake. -/
def handshakes (pc : Postcard) (cfg : WsClientConfig) (scfg : WsServerConfig) (snow : Snow) :
    Mealy (Recorded (Loop snow) Message Message × Recorded (Serving snow) Message Message)
      ((ℕ × Input) ⊕ (ℕ × SessionInput)) (Effect ⊕ ServingEffect snow) :=
  duplex (Loop.handshake pc cfg snow) (Serving.handshake pc scfg snow)

/-- Nothing fails, and the client's key is one that `generate_keypair` returns. -/
def Succeeds (generated : Bytes → Prop) : (ℕ × Input) ⊕ (ℕ × SessionInput) → Prop
  | .inl (_, .keypair (.ok priv)) => generated priv
  | .inl (_, i) => i.fails = false
  | .inr (_, i) => i.fails = false

instance (generated : Bytes → Prop) [DecidablePred generated] :
    DecidablePred (Succeeds generated) := by
  intro e
  unfold Succeeds
  split <;> infer_instance

/-- Where the two ends can be, with what is on its way. -/
inductive Meets (cfg : WsClientConfig)
    (F : snow.Transport → List (Bytes × Bytes) → snow.Transport → Prop) (s₀ : NoiseSession snow) :
    Loop snow → List Message → Serving snow → List Message → Prop where
  | connected {l : Loop snow} {url : Text} : l.phase = .connecting url →
      Meets cfg F s₀ l [] (.accepting .hello) []
  | hello {l : Loop snow} {url : Text} : l.phase = .sendHello url ∨ l.phase = .awaitReply url →
      Meets cfg F s₀ l [.text (hello cfg)] (.accepting .hello) []
  | accepted {l : Loop snow} {url : Text} : l.phase = .sendHello url ∨ l.phase = .awaitReply url →
      Meets cfg F s₀ l [] (.accepting (.key s₀)) [.text protocolAccepted]
  | keypair {l : Loop snow} {url : Text} : l.phase = .noiseKeypair url →
      Meets cfg F s₀ l [] (.accepting (.key s₀)) []
  | first {l : Loop snow} {url : Text} {c : NoiseSession snow} {m : Bytes} :
      l.phase = .noiseSendE url c ∨ l.phase = .noiseAwait url c →
      NoiseSession.Comes (fun c s => s.SecondMessage F c) m c s₀ →
      Meets cfg F s₀ l [.binary m] (.accepting (.key s₀)) []
  | second {l : Loop snow} {url : Text} {c s : NoiseSession snow} {m : Bytes} :
      l.phase = .noiseSendE url c ∨ l.phase = .noiseAwait url c →
      NoiseSession.Comes (fun s c => c.ThirdMessage F s) m s c →
      Meets cfg F s₀ l [] (.accepting (.final s)) [.binary m]
  | third {l : Loop snow} {url : Text} {c s : NoiseSession snow} {m : Bytes} :
      l.phase = .noiseSendS url c ∨ l.phase = .authPayload url c →
      NoiseSession.Comes (NoiseSession.Keyed F) m c s →
      Meets cfg F s₀ l [.binary m] (.accepting (.final s)) []
  | keyed {l : Loop snow} {url : Text} {c s : NoiseSession snow} :
      l.phase = .noiseSendS url c ∨ l.phase = .authPayload url c → NoiseSession.Keyed F c s →
      Meets cfg F s₀ l [] (.accepted s) []

variable {pc : Postcard} {cfg : WsClientConfig} {scfg : WsServerConfig} {now : ℕ}
  {F : snow.Transport → List (Bytes × Bytes) → snow.Transport → Prop} {s₀ : NoiseSession snow}
  {generated : Bytes → Prop} {up down : List Message}

namespace Loop

variable {l l' : Loop snow} {i : Input} {r : Loop snow × List Effect} {p : Serving snow}
  {url : Text} {c : NoiseSession snow}

/-- What a step makes of the relation, and that it is one of the steps that were left. -/
def Advances (cfg : WsClientConfig)
    (F : snow.Transport → List (Bytes × Bytes) → snow.Transport → Prop) (s₀ : NoiseSession snow)
    (l : Loop snow) (up : List Message) (p : Serving snow) (down : List Message)
    (r : Loop snow × List Effect) : Prop :=
  Meets cfg F s₀ r.1 (up ++ r.2.filterMap Effect.wire?) p down ∧
    r.1.handshakeLeft + 1 = l.handshakeLeft

theorem step_of_connecting (hl : l.phase = .connecting url) (hi : i.fails = false)
    (h : l.step pc cfg now i = some r) :
    i.reads? = none ∧ r = (l.goto (.sendHello url),
      [.publish .handshaking, .send (.text (hello cfg))]) := by
  simp only [step, hl] at h
  split at h <;> cases h
  · exact ⟨rfl, rfl⟩
  · cases hi

theorem step_of_sendHello (hl : l.phase = .sendHello url) (hi : i.fails = false)
    (h : l.step pc cfg now i = some r) :
    i.reads? = none ∧ r = (l.goto (.awaitReply url), []) := by
  simp only [step, hl] at h
  split at h <;> cases h
  · exact ⟨rfl, rfl⟩
  · cases hi

theorem step_of_awaitReply (hl : l.phase = .awaitReply url) (hi : i.fails = false)
    (h : l.step pc cfg now i = some r) : ∃ m : WsMessage, i.reads? = some m.message ∧
      r = l.onVersionReply cfg url (versionReply (some (.ok m))) := by
  simp only [step, hl] at h
  split at h <;> cases h
  next m =>
  rcases m with _ | _ | m
  · cases hi
  · cases hi
  · exact ⟨m, rfl, rfl⟩

theorem step_of_noiseKeypair (hl : l.phase = .noiseKeypair url)
    (hi : Succeeds generated (.inl (now, i))) (h : l.step pc cfg now i = some r) :
    i.reads? = none ∧ ∃ priv, generated priv ∧
      ∀ c m c', NoiseSession.client snow (.ok priv) cfg.noiseServerKey = .ok c →
        c.writeMessage [] 65535 = (c', .ok m) →
        r = (l.goto (.noiseSendE url c'), [.send (.binary m)]) := by
  simp only [step, hl] at h
  split at h
  · next kp =>
    rcases kp with e | priv
    · cases hi
    · refine ⟨rfl, priv, hi, fun c m c' hc hm => ?_⟩
      simp only [noiseStart, hc, handshakeWrite, hm] at h
      exact (Option.some.inj h).symm
  · cases h

theorem step_of_noiseSendE (hl : l.phase = .noiseSendE url c) (hi : i.fails = false)
    (h : l.step pc cfg now i = some r) :
    i.reads? = none ∧ r = (l.goto (.noiseAwait url c), []) := by
  simp only [step, hl] at h
  split at h <;> cases h
  · exact ⟨rfl, rfl⟩
  · cases hi

theorem step_of_noiseAwait (hl : l.phase = .noiseAwait url c) (hi : i.fails = false)
    (h : l.step pc cfg now i = some r) : ∃ m : WsMessage, i.reads? = some m.message ∧
      ∀ data, m = .binary data → ∀ c' plain m' c'', c.readMessage data 65535 = (c', .ok plain) →
        c'.writeMessage [] 65535 = (c'', .ok m') →
        r = (l.goto (.noiseSendS url c''), [.send (.binary m')]) := by
  simp only [step, hl] at h
  split at h
  · next item =>
    rcases item with _ | _ | m
    · cases hi
    · cases hi
    · refine ⟨m, rfl, ?_⟩
      rintro data rfl c' plain m' c'' hc hm
      simp only [noiseReply, hc, handshakeWrite, hm] at h
      exact (Option.some.inj h).symm
  · cases h

theorem step_of_noiseSendS (hl : l.phase = .noiseSendS url c) (hc : c.isFinished = true)
    (hi : i.fails = false) (h : l.step pc cfg now i = some r) :
    i.reads? = none ∧ r = (l.goto (.authPayload url c), [.noiseFinished]) := by
  simp only [step, hl] at h
  split at h
  · rw [noiseFinish, if_pos hc] at h
    exact ⟨rfl, (Option.some.inj h).symm⟩
  · cases hi
  · cases h

/-- The client's steps. -/
theorem advances_step {x : ℕ × Input}
    (hx : ∀ priv, generated priv → ∃ c,
      NoiseSession.client snow (.ok priv) cfg.noiseServerKey = .ok c ∧ c.Exchange F s₀)
    (hm : Meets cfg F s₀ l up p (x.2.reads?.toList ++ down))
    (hi : Succeeds generated (.inl x)) (hl : 0 < l.handshakeLeft)
    (h : l.step pc cfg x.1 x.2 = some r) : l.Advances cfg F s₀ up p down r := by
  obtain ⟨now, i⟩ := x
  have hfails : i.fails = false := by
    cases i <;> first | exact hi | skip
    next kp => cases kp <;> first | exact hi | rfl
  dsimp only at hm h
  generalize hd : i.reads?.toList ++ down = d at hm
  cases hm with
  | connected hp =>
    obtain ⟨hr, rfl⟩ := step_of_connecting hp hfails h
    rw [hr] at hd
    cases hd
    exact ⟨.hello (Or.inl rfl), by simp [handshakeLeft, goto, hp]⟩
  | hello hp =>
    rcases hp with hp | hp
    · obtain ⟨hr, rfl⟩ := step_of_sendHello hp hfails h
      rw [hr] at hd
      cases hd
      exact ⟨.hello (Or.inr rfl), by simp [handshakeLeft, goto, hp]⟩
    · obtain ⟨m, hr, -⟩ := step_of_awaitReply hp hfails h
      rw [hr] at hd
      cases hd
  | accepted hp =>
    rcases hp with hp | hp
    · obtain ⟨hr, rfl⟩ := step_of_sendHello hp hfails h
      rw [hr] at hd
      cases hd
      exact ⟨.accepted (Or.inr rfl), by simp [handshakeLeft, goto, hp]⟩
    · obtain ⟨m, hr, rfl⟩ := step_of_awaitReply hp hfails h
      rw [hr] at hd
      obtain ⟨hm, rfl⟩ := List.cons.inj hd
      obtain rfl : m = .text protocolAccepted := WsMessage.message_injective hm
      rw [versionReply_accepted_text]
      exact ⟨.keypair rfl, by simp [handshakeLeft, onVersionReply, goto, hp]⟩
  | keypair hp =>
    obtain ⟨hr, priv, hpriv, hall⟩ := step_of_noiseKeypair hp hi h
    rw [hr] at hd
    cases hd
    obtain ⟨c, hc, m, c', hw, hcomes⟩ := hx priv hpriv
    obtain rfl := hall c m c' hc hw
    exact ⟨.first (Or.inl rfl) hcomes, by simp [handshakeLeft, goto, hp]⟩
  | first hp hcomes =>
    rcases hp with hp | hp
    · obtain ⟨hr, rfl⟩ := step_of_noiseSendE hp hfails h
      rw [hr] at hd
      cases hd
      exact ⟨.first (Or.inr rfl) hcomes, by simp [handshakeLeft, goto, hp]⟩
    · obtain ⟨m, hr, -⟩ := step_of_noiseAwait hp hfails h
      rw [hr] at hd
      cases hd
  | second hp hcomes =>
    rcases hp with hp | hp
    · obtain ⟨hr, rfl⟩ := step_of_noiseSendE hp hfails h
      rw [hr] at hd
      cases hd
      exact ⟨.second (Or.inr rfl) hcomes, by simp [handshakeLeft, goto, hp]⟩
    · obtain ⟨m, hr, hall⟩ := step_of_noiseAwait hp hfails h
      rw [hr] at hd
      obtain ⟨hm, rfl⟩ := List.cons.inj hd
      obtain ⟨plain, c', hread, m', c'', hw, hthird⟩ := hcomes
      obtain rfl := hall _ (WsMessage.message_injective hm) c' plain m' c'' hread hw
      exact ⟨.third (Or.inl rfl) hthird, by simp [handshakeLeft, goto, hp]⟩
  | third hp hcomes =>
    obtain ⟨plain, s', hread, a, b, rfl, hs, hf⟩ := hcomes
    rcases hp with hp | hp
    · obtain ⟨hr, rfl⟩ := step_of_noiseSendS hp rfl hfails h
      rw [hr] at hd
      cases hd
      exact ⟨.third (Or.inr rfl) ⟨plain, s', hread, a, b, rfl, hs, hf⟩,
        by simp [handshakeLeft, goto, hp]⟩
    · simp [handshakeLeft, hp] at hl
  | keyed hp hkeyed =>
    obtain ⟨a, b, rfl, hs, hf⟩ := hkeyed
    rcases hp with hp | hp
    · obtain ⟨hr, rfl⟩ := step_of_noiseSendS hp rfl hfails h
      rw [hr] at hd
      cases hd
      exact ⟨.keyed (Or.inr rfl) ⟨a, b, rfl, hs, hf⟩, by simp [handshakeLeft, goto, hp]⟩
    · simp [handshakeLeft, hp] at hl

end Loop

namespace Serving

variable {l : Loop snow} {p : Serving snow} {stage : AcceptStage snow}
  {r : Serving snow × List (ServingEffect snow)}

/-- An accepting server reads a message. -/
theorem step_of_accepting {x : ℕ × SessionInput} (hx : x.2.fails = false)
    (h : (machine pc scfg (fun _ => .ok ()) snow).step (accepting stage) x = some r) :
    ∃ m, x.2.reads? = some m ∧
      r = afterRead (stage.next scfg (fun _ => .ok ()) (some (.ok m))) := by
  obtain ⟨now, i⟩ := x
  cases i with
  | next item =>
    rcases item with _ | _ | m
    · cases hx
    · cases hx
    · exact ⟨m, rfl, (Option.some.inj h).symm⟩
  | _ => cases h

/-- The server's steps. -/
theorem advances_step {x : ℕ × SessionInput}
    (hs₀ : NoiseSession.server snow scfg.noisePrivateKey = .ok s₀)
    (hello : checkHello scfg (hello cfg) = .ok ())
    (hm : Meets cfg F s₀ l (x.2.reads?.toList ++ up) p down) (hi : x.2.fails = false)
    (hp : 0 < p.handshakeLeft)
    (h : (machine pc scfg (fun _ => .ok ()) snow).step p x = some r) :
    Meets cfg F s₀ l up r.1 (down ++ r.2.filterMap ServingEffect.message?) ∧
      r.1.handshakeLeft + 1 = p.handshakeLeft := by
  generalize hu : x.2.reads?.toList ++ up = u at hm
  cases hm with
  | connected | accepted | keypair | second =>
    obtain ⟨m, hr, -⟩ := step_of_accepting hi h
    rw [hr] at hu
    cases hu
  | hello hl =>
    obtain ⟨m, hr, rfl⟩ := step_of_accepting hi h
    rw [hr] at hu
    obtain ⟨rfl, rfl⟩ := List.cons.inj hu
    simp only [AcceptStage.next, hello, AcceptStage.acceptHello, hs₀, afterRead]
    exact ⟨.accepted hl, rfl⟩
  | first hl hcomes =>
    obtain ⟨m, hr, rfl⟩ := step_of_accepting hi h
    rw [hr] at hu
    obtain ⟨rfl, rfl⟩ := List.cons.inj hu
    obtain ⟨plain, s₁, hread, m', s₂, hw, hsecond⟩ := hcomes
    simp only [AcceptStage.next, AcceptStage.acceptKey, acceptReply, hread, handshakeWrite, hw,
      afterRead]
    exact ⟨.second hl hsecond, rfl⟩
  | third hl hcomes =>
    obtain ⟨m, hr, rfl⟩ := step_of_accepting hi h
    rw [hr] at hu
    obtain ⟨rfl, rfl⟩ := List.cons.inj hu
    obtain ⟨plain, s₁, hread, a, b, rfl, rfl, hf⟩ := hcomes
    simp only [AcceptStage.next, acceptFinish, hread, afterRead]
    exact ⟨.keyed hl ⟨a, b, rfl, rfl, hf⟩, rfl⟩
  | keyed => exact absurd hp (Nat.lt_irrefl 0)

end Serving

theorem Loop.handshake_step {l l' : Loop snow} {x : ℕ × Input} {o : List Effect}
    (h : (handshake pc cfg snow).step l x = some (l', o)) :
    0 < l.handshakeLeft ∧ ∃ r, l.step pc cfg x.1 x.2 = some r ∧ l' = r.1 ∧
      (handshake pc cfg snow).seals l x = r.2.filterMap Effect.wire? := by
  have hseals : (handshake pc cfg snow).seals l x = o.filterMap Effect.wire? :=
    Mealy.seals_onSocket h
  obtain ⟨hl, hs⟩ := Mealy.step_restrict.mp h
  obtain ⟨r, hr, hro⟩ := Option.map_eq_some_iff.mp hs
  cases hro
  exact ⟨hl, r, hr, rfl, hseals⟩

theorem Serving.handshake_step {p p' : Serving snow} {x : ℕ × SessionInput}
    {o : List (ServingEffect snow)} (h : (handshake pc scfg snow).step p x = some (p', o)) :
    0 < p.handshakeLeft ∧ (machine pc scfg (fun _ => .ok ()) snow).step p x = some (p', o) ∧
      (handshake pc scfg snow).seals p x = o.filterMap ServingEffect.message? := by
  obtain ⟨hp, hs⟩ := Mealy.step_restrict.mp h
  exact ⟨hp, hs, Mealy.seals_onSocket h⟩

section Runs

variable {s t : Recorded (Loop snow) Message Message × Recorded (Serving snow) Message Message}
  {e : (ℕ × Input) ⊕ (ℕ × SessionInput)} {o : List (Effect ⊕ ServingEffect snow)}

/-- A step of either end. -/
theorem handshakes_step (hs₀ : NoiseSession.server snow scfg.noisePrivateKey = .ok s₀)
    (hhello : checkHello scfg (hello cfg) = .ok ())
    (hx : ∀ priv, generated priv → ∃ c,
      NoiseSession.client snow (.ok priv) cfg.noiseServerKey = .ok c ∧ c.Exchange F s₀)
    (hf : InFlight s up down) (hm : Meets cfg F s₀ s.1.state up s.2.state down)
    (hG : Reliable (Loop.handshake pc cfg snow) (Serving.handshake pc scfg snow)
      (Succeeds generated) s e)
    (h : (handshakes pc cfg scfg snow).step s e = some (t, o)) :
    (∃ up' down', InFlight t up' down' ∧ Meets cfg F s₀ t.1.state up' t.2.state down') ∧
      t.1.state.handshakeLeft + t.2.state.handshakeLeft + 1 =
        s.1.state.handshakeLeft + s.2.state.handshakeLeft := by
  obtain ⟨hok, hnext⟩ := hG
  cases e with
  | inl x =>
    obtain ⟨ht, hstep, down', rfl, hf'⟩ := hf.left h hnext
    obtain ⟨hl, r, hr, hl', hseals⟩ := Loop.handshake_step hstep
    obtain ⟨hm', hrank⟩ := Loop.advances_step hx hm hok hl hr
    rw [hseals] at hf'
    refine ⟨⟨_, down', hf', ?_⟩, ?_⟩
    · rw [ht, hl']
      exact hm'
    · rw [ht, hl', ← hrank]
      omega
  | inr x =>
    obtain ⟨ht, hstep, up', rfl, hf'⟩ := hf.right h hnext
    obtain ⟨hp, hr, hseals⟩ := Serving.handshake_step hstep
    obtain ⟨hm', hrank⟩ := Serving.advances_step hs₀ hhello hm hok hp hr
    rw [hseals] at hf'
    refine ⟨⟨up', _, hf', ?_⟩, ?_⟩
    · rw [ht]
      exact hm'
    · rw [ht, ← hrank]
      exact Nat.add_assoc _ _ 1

theorem canStep_left {x : ℕ × Input} (hf : InFlight s up down) (hok : Succeeds generated (.inl x))
    (hl : 0 < s.1.state.handshakeLeft) (hs : (s.1.state.step pc cfg x.1 x.2).isSome)
    (hd : x.2.reads?.toList <+: down) :
    Reliable (Loop.handshake pc cfg snow) (Serving.handshake pc scfg snow) (Succeeds generated) s
      (.inl x) ∧ ((handshakes pc cfg scfg snow).step s (.inl x)).isSome := by
  refine ⟨⟨hok, hf.reads_left.mpr hd⟩, ?_⟩
  obtain ⟨r, hr⟩ := Option.isSome_iff_exists.mp hs
  have hm : (Loop.machine pc cfg snow).step s.1.state x = some (r.1, .resumed x.2 :: r.2) := by
    simp only [Loop.machine, hr, Option.map_some]
  have hh : (Loop.handshake pc cfg snow).step s.1.state x = some (r.1, .resumed x.2 :: r.2) :=
    Mealy.step_restrict.mpr ⟨hl, hm⟩
  simp [handshakes, duplex, Endpoint.recorded, hh]

theorem canStep_right {m : Message} {stage : AcceptStage snow} (hf : InFlight s [m] down)
    (hp : s.2.state = .accepting stage) :
    Reliable (Loop.handshake pc cfg snow) (Serving.handshake pc scfg snow) (Succeeds generated) s
      (.inr (0, .next (some (.ok m)))) ∧
      ((handshakes pc cfg scfg snow).step s (.inr (0, .next (some (.ok m))))).isSome := by
  refine ⟨⟨rfl, hf.reads_right.mpr (List.prefix_refl [m])⟩, ?_⟩
  have hm : ((Serving.machine pc scfg (fun _ => .ok ()) snow).step s.2.state
      (0, .next (some (.ok m)))).isSome := by
    rw [hp]
    rfl
  obtain ⟨r, hr⟩ := Option.isSome_iff_exists.mp hm
  have hl : 0 < s.2.state.handshakeLeft := by
    rw [hp]
    cases stage <;> exact Nat.succ_pos _
  have hh : (Serving.handshake pc scfg snow).step s.2.state (0, .next (some (.ok m))) =
      some (r.1, r.2) := Mealy.step_restrict.mpr ⟨hl, hr⟩
  simp [handshakes, duplex, Endpoint.recorded, hh]

/-- As long as steps are left, one of the two ends can go on. -/
theorem handshakes_progress (hgen : ∃ priv, generated priv) (hf : InFlight s up down)
    (hm : Meets cfg F s₀ s.1.state up s.2.state down)
    (hleft : 0 < s.1.state.handshakeLeft + s.2.state.handshakeLeft) :
    ∃ e, Reliable (Loop.handshake pc cfg snow) (Serving.handshake pc scfg snow)
      (Succeeds generated) s e ∧ ((handshakes pc cfg scfg snow).step s e).isSome := by
  have hsend : (s.1.state.step pc cfg 0 (.sent (.ok ()))).isSome → 0 < s.1.state.handshakeLeft →
      ∃ e, Reliable (Loop.handshake pc cfg snow) (Serving.handshake pc scfg snow)
        (Succeeds generated) s e ∧ ((handshakes pc cfg scfg snow).step s e).isSome :=
    fun hs hl => ⟨.inl (0, .sent (.ok ())), canStep_left hf rfl hl hs List.nil_prefix⟩
  generalize hp : s.2.state = p at hm hleft
  generalize hu : up = u at hm
  cases hm with
  | connected hc =>
    refine ⟨.inl (0, .connected (.ok ())), canStep_left hf rfl ?_ ?_ List.nil_prefix⟩
    · simp [Loop.handshakeLeft, hc]
    · simp [Loop.step, hc]
  | hello => exact ⟨_, canStep_right (hu ▸ hf) hp⟩
  | accepted hc =>
    rcases hc with hc | hc
    · exact hsend (by simp [Loop.step, hc]) (by simp [Loop.handshakeLeft, hc])
    · refine ⟨.inl (0, .next (some (.ok (.text protocolAccepted)))), canStep_left hf rfl ?_ ?_
        (List.prefix_refl _)⟩
      · simp [Loop.handshakeLeft, hc]
      · simp [Loop.step, hc]
  | keypair hc =>
    obtain ⟨priv, hpriv⟩ := hgen
    refine ⟨.inl (0, .keypair (.ok priv)), canStep_left hf hpriv ?_ ?_ List.nil_prefix⟩
    · simp [Loop.handshakeLeft, hc]
    · simp only [Loop.step, hc]
      split <;> rfl
  | first => exact ⟨_, canStep_right (hu ▸ hf) hp⟩
  | @second _ _ _ m hc =>
    rcases hc with hc | hc
    · exact hsend (by simp [Loop.step, hc]) (by simp [Loop.handshakeLeft, hc])
    · refine ⟨.inl (0, .next (some (.ok (.binary m)))), canStep_left hf rfl ?_ ?_
        (List.prefix_refl _)⟩
      · simp [Loop.handshakeLeft, hc]
      · simp only [Loop.step, hc]
        split <;> rfl
  | third => exact ⟨_, canStep_right (hu ▸ hf) hp⟩
  | keyed hc =>
    rcases hc with hc | hc
    · refine hsend ?_ (by simp [Loop.handshakeLeft, hc])
      simp only [Loop.step, hc]
      split <;> rfl
    · simp [Loop.handshakeLeft, hc, Serving.handshakeLeft] at hleft

theorem Meets.finished {l : Loop snow} {p : Serving snow} (hm : Meets cfg F s₀ l up p down)
    (hleft : l.handshakeLeft + p.handshakeLeft = 0) :
    ∃ url a b, l.phase = .authPayload url a ∧ p = .accepted b ∧ a.Keyed F b := by
  obtain ⟨hl, hp⟩ := Nat.add_eq_zero_iff.mp hleft
  cases hm with
  | connected | hello | accepted | keypair | first | second | third => cases hp
  | keyed hc hkeyed =>
    rcases hc with hc | hc
    · simp [Loop.handshakeLeft, hc] at hl
    · exact ⟨_, _, _, hc, rfl, hkeyed⟩

/-- A client and a server with the same protocol finish the handshake in ten steps, whatever the
order of their steps: none of them is the last before that, and then both have keys that go with
each other. -/
theorem handshake_completes {l : Loop snow} {url : Text}
    {es : List ((ℕ × Input) ⊕ (ℕ × SessionInput))} {tr : List (Effect ⊕ ServingEffect snow)}
    (hn : validateProtocolString cfg.protocolName) (hv : validateProtocolString cfg.protocolVersion)
    (hn' : validateProtocolString scfg.protocolName) (hsame : SameProtocol cfg scfg)
    (hs₀ : NoiseSession.server snow scfg.noisePrivateKey = .ok s₀)
    (hgen : ∃ priv, generated priv)
    (hx : ∀ priv, generated priv → ∃ c,
      NoiseSession.client snow (.ok priv) cfg.noiseServerKey = .ok c ∧ c.Exchange F s₀)
    (hl : l.phase = .connecting url)
    (h : (handshakes pc cfg scfg snow).run (.fresh l, .fresh (.accepting .hello)) es =
      some (s, tr))
    (hG : (handshakes pc cfg scfg snow).Along
      (Reliable (Loop.handshake pc cfg snow) (Serving.handshake pc scfg snow) (Succeeds generated))
      (.fresh l, .fresh (.accepting .hello)) es) :
    es.length ≤ 10 ∧
      (es.length < 10 → ∃ e,
        Reliable (Loop.handshake pc cfg snow) (Serving.handshake pc scfg snow)
          (Succeeds generated) s e ∧ ((handshakes pc cfg scfg snow).step s e).isSome) ∧
      (es.length = 10 → ∃ url a b, s.1.state.phase = .authPayload url a ∧
        s.2.state = .accepted b ∧ a.Keyed F b) := by
  have hhello := (checkHello_hello hn hv hn').mpr hsame
  have hrun : (∃ up down, InFlight s up down ∧ Meets cfg F s₀ s.1.state up s.2.state down) ∧
      es.length + (s.1.state.handshakeLeft + s.2.state.handshakeLeft) = 10 := by
    refine Mealy.run_induction_along (P := fun es _ t =>
      (∃ up down, InFlight t up down ∧ Meets cfg F s₀ t.1.state up t.2.state down) ∧
        es.length + (t.1.state.handshakeLeft + t.2.state.handshakeLeft) = 10) ?_ ?_ h hG
    · refine ⟨⟨[], [], inFlight_fresh l _, .connected hl⟩, ?_⟩
      simp [Recorded.fresh, Loop.handshakeLeft, hl, Serving.handshakeLeft]
    · rintro es tr m e t o - ⟨⟨up, down, hf, hm⟩, hlen⟩ hg hs
      obtain ⟨hmeets, hleft⟩ := handshakes_step hs₀ hhello hx hf hm hg hs
      refine ⟨hmeets, ?_⟩
      rw [List.length_append, List.length_singleton]
      omega
  obtain ⟨⟨up, down, hf, hm⟩, hlen⟩ := hrun
  refine ⟨by omega, fun hlt => ?_, fun heq => ?_⟩
  · exact handshakes_progress hgen hf hm (by omega)
  · exact hm.finished (by omega)

end Runs

/-- The two ends take turns. -/
def inTurns : List ((ℕ × Input) ⊕ (ℕ × SessionInput)) :=
  [.inl (0, .connected (.ok ())), .inl (0, .sent (.ok ())),
    .inr (0, .next (some (.ok (.text (hello .sample))))),
    .inl (0, .next (some (.ok (.text protocolAccepted)))),
    .inl (0, .keypair (.ok (List.replicate 32 1))),
    .inr (0, .next (some (.ok (.binary (List.replicate 32 0))))), .inl (0, .sent (.ok ())),
    .inl (0, .next (some (.ok (.binary (Ideal.messageTwo (List.replicate 32 7)))))),
    .inr (0, .next (some (.ok (.binary (List.replicate 64 0))))), .inl (0, .sent (.ok ()))]

theorem handshake_completes_inTurns : ∃ s tr,
    (handshakes .wire .sample .sample (Snow.ideal Ideal.genuine)).run
        (.fresh Loop.opened, .fresh (.accepting .hello)) inTurns = some (s, tr) ∧
      ∃ url a b, s.1.state.phase = .authPayload url a ∧ s.2.state = .accepted b ∧
        a.Keyed Ideal.flight b := by
  let ok := Succeeds fun _ : Bytes => True
  have hrun : (((handshakes .wire .sample .sample (Snow.ideal Ideal.genuine)).restrict
      (Reliable (Loop.handshake .wire .sample _) (Serving.handshake .wire .sample _) ok)).run
        (.fresh Loop.opened, .fresh (.accepting .hello)) inTurns).isSome = true := by
    decide +kernel
  obtain ⟨⟨s, tr⟩, hr⟩ := Option.isSome_iff_exists.mp hrun
  obtain ⟨h, hG⟩ := Mealy.run_restrict.mp hr
  have hx : ∀ priv : Bytes, True → ∃ c,
      NoiseSession.client (Snow.ideal Ideal.genuine) (.ok priv)
          WsClientConfig.sample.noiseServerKey = .ok c ∧
        c.Exchange Ideal.flight ⟨some (.handshake ⟨false, List.replicate 32 7, none, 0⟩)⟩ := by
    intro priv _
    have hc : NoiseSession.client (Snow.ideal Ideal.genuine) (.ok priv) none =
      .ok ⟨some (.handshake ⟨true, priv, none, 0⟩)⟩ := rfl
    exact ⟨_, hc, Ideal.exchange hc rfl (by simp)⟩
  obtain ⟨-, -, hfin⟩ := handshake_completes (by decide) (by decide) (by decide) ⟨rfl, rfl⟩ rfl
    ⟨[], trivial⟩ hx rfl h hG
  exact ⟨s, tr, h, hfin rfl⟩

end NotifiTransport

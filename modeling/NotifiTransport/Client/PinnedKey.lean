import NotifiTransport.Client.Connection
import NotifiTransport.Crypto.Ideal

/-! # The pinned server key

`noise_server_key` only reaches the builder, as a preset remote key that an XX initiator
overwrites. So the handshake succeeds with any peer that completes it, whatever static key
the peer presents, and it enforces the pin exactly against the peers that cannot.
-/

namespace NotifiTransport

/-- The static key that the peer presents and proves in message 2. -/
def XX.presentedBy {snow : Snow} (X : XX snow) (priv : Bytes) (peer : NoisePeer) : Option Bytes :=
  match peer.answer (X.hello priv) with
  | some (.ok (.binary m)) => X.presented priv m
  | _ => none

/-- The peer takes all three messages and presents `key`. -/
def XX.Completes {snow : Snow} (X : XX snow) (priv : Bytes) (peer : NoisePeer)
    (key : Bytes) : Prop :=
  peer.sendE (X.hello priv) = .ok () ∧ ∃ m, peer.answer (X.hello priv) = some (.ok (.binary m)) ∧
    X.presented priv m = some key ∧ peer.sendS (X.final priv m) = .ok ()

/-- Snow takes `key` as a preset remote key. -/
def Accepted (snow : Snow) (priv : Bytes) (key : Option Bytes) : Prop :=
  ∃ noise, NoiseSession.client snow (.ok priv) key = .ok noise

variable {snow : Snow} {X : XX snow} {priv key : Bytes} {pin : Option Bytes} {peer : NoisePeer}

theorem XX.Completes.presentedBy (h : X.Completes priv peer key) :
    X.presentedBy priv peer = some key := by
  obtain ⟨-, m, hm, hk, -⟩ := h
  simp [XX.presentedBy, hm, hk]

theorem noiseStart_ok {noise : NoiseSession snow} {e : Bytes}
    (h : noiseStart snow pin (.ok priv) = .ok (noise, e)) : Accepted snow priv pin := by
  unfold noiseStart at h
  split at h
  · cases h
  · next noise hc => exact ⟨noise, hc⟩

theorem noiseStart_error (snow : Snow) (pin : Option Bytes) (e : Text) :
    ∃ e', noiseStart snow pin (.error e) = .error e' := by
  rcases hb : snow.builder noisePattern with e' | b <;>
    exact ⟨_, by simp [noiseStart, NoiseSession.client, hb, bind, Except.bind, Except.mapError]; rfl⟩

theorem noiseStart_of_accepted (X : XX snow) (h : Accepted snow priv pin) : ∃ s,
    noiseStart snow pin (.ok priv) = .ok (⟨some (.handshake s)⟩, X.hello priv) ∧
      X.Waiting priv s := by
  obtain ⟨noise, hc⟩ := h
  obtain ⟨s, rfl, hr⟩ := X.client _ _ _ hc
  obtain ⟨s', hw, hw'⟩ := X.writeMessage_hello hr
  exact ⟨s', by simp [noiseStart, hc, handshakeWrite, hw], hw'⟩

theorem noiseReply_genuine {s : snow.Handshake} {m : Bytes} (hw : X.Waiting priv s)
    (hk : X.presented priv m = some key) : ∃ t,
    noiseReply ⟨some (.handshake s)⟩ (some (.ok (.binary m))) =
      .ok (⟨some (.transport t)⟩, X.final priv m) := by
  obtain ⟨p, s', hr, ha⟩ := X.readMessage_genuine hw hk
  obtain ⟨t, hf⟩ := X.writeMessage_final ha
  exact ⟨t, by simp [noiseReply, hr, handshakeWrite, hf]⟩

theorem noiseReply_ok {s : snow.Handshake} {item : WsItem} {noise : NoiseSession snow}
    {b : Bytes} (hw : X.Waiting priv s)
    (h : noiseReply ⟨some (.handshake s)⟩ item = .ok (noise, b)) :
    ∃ m key, item = some (.ok (.binary m)) ∧ X.presented priv m = some key := by
  unfold noiseReply at h
  split at h
  · next m =>
    rcases hk : X.presented priv m with _ | key
    · obtain ⟨e, he⟩ := X.readMessage_forged hw hk
      split at h
      · cases h
      · next hr =>
        rw [hr] at he
        cases he
    · exact ⟨m, key, rfl, hk⟩
  · cases h

/-- The handshake succeeds with every peer that completes it, under any accepted pin. -/
theorem handleNoiseHandshake_ok_iff (X : XX snow) : (∃ noise,
      handleNoiseHandshake snow pin (.ok priv) peer = .ok noise) ↔
    Accepted snow priv pin ∧ ∃ key, X.Completes priv peer key := by
  constructor
  · rintro ⟨noise, h⟩
    rcases hs : noiseStart snow pin (.ok priv) with e | ⟨noise₁, b₁⟩
    · simp [handleNoiseHandshake, hs, bind, Except.bind] at h
    · have hacc := noiseStart_ok hs
      obtain ⟨s, hs', hw⟩ := noiseStart_of_accepted X hacc
      rcases hE : peer.sendE (X.hello priv) with e | ⟨⟩
      · simp [handleNoiseHandshake, hs', hE, bind, Except.bind, Except.mapError] at h
      · rcases hR : noiseReply ⟨some (.handshake s)⟩ (peer.answer (X.hello priv)) with e | ⟨noise₂, b₂⟩
        · simp [handleNoiseHandshake, hs', hE, hR, bind, Except.bind, Except.mapError] at h
        · obtain ⟨m, key, hm, hk⟩ := noiseReply_ok hw hR
          obtain ⟨t, ht⟩ := noiseReply_genuine hw hk
          rw [hm, ht] at hR
          cases hR
          rcases hS : peer.sendS (X.final priv m) with e | ⟨⟩
          · simp [handleNoiseHandshake, hs', hE, hm, ht, hS, bind, Except.bind,
              Except.mapError] at h
          · exact ⟨hacc, key, hE, m, hm, hk, hS⟩
  · rintro ⟨hacc, key, hE, m, hm, hk, hS⟩
    obtain ⟨s, hs, hw⟩ := noiseStart_of_accepted X hacc
    obtain ⟨t, ht⟩ := noiseReply_genuine hw hk
    exact ⟨⟨some (.transport t)⟩, by
      simp [handleNoiseHandshake, hs, hE, hm, ht, hS, bind, Except.bind, Except.mapError,
        noiseFinish, NoiseSession.isFinished]⟩

/-- The pin holds exactly when no peer with another key completes the handshake. -/
theorem handleNoiseHandshake_pinned_iff (X : XX snow) (pin : Bytes) (keypair : Except Text Bytes)
    (peer : NoisePeer) :
    (∀ noise, handleNoiseHandshake snow (some pin) keypair peer = .ok noise →
        ∃ priv, keypair = .ok priv ∧ X.presentedBy priv peer = some pin) ↔
      ∀ priv, keypair = .ok priv → Accepted snow priv (some pin) →
        ∀ key, X.Completes priv peer key → key = pin := by
  constructor
  · rintro h priv rfl hacc key hc
    obtain ⟨noise, hn⟩ := (handleNoiseHandshake_ok_iff X).mpr ⟨hacc, key, hc⟩
    obtain ⟨_, hp, hp'⟩ := h noise hn
    cases hp
    rw [hc.presentedBy] at hp'
    exact Option.some.inj hp'
  · intro h noise hn
    rcases keypair with e | priv
    · obtain ⟨e', he⟩ := noiseStart_error snow (some pin) e
      simp [handleNoiseHandshake, he, bind, Except.bind] at hn
    · obtain ⟨hacc, key, hc⟩ := (handleNoiseHandshake_ok_iff X).mp ⟨noise, hn⟩
      exact ⟨priv, rfl, by rw [hc.presentedBy, h priv rfl hacc key hc]⟩

/-- The steps of the connection loop are those of the handshake: where it succeeds, the loop
comes to the authentication. -/
theorem Loop.run_handleNoiseHandshake {pc : Postcard} {cfg : WsClientConfig} {url : Text}
    {n : UInt32} {c : Bool} {t : ℕ} {keypair : Except Text Bytes} {a b : Except Text Unit}
    {m : WsItem} {noise : NoiseSession snow}
    (h : handleNoiseHandshake snow cfg.noiseServerKey keypair ⟨fun _ => a, fun _ => m, fun _ => b⟩ =
      .ok noise) :
    ((Loop.machine pc cfg snow).run ⟨.noiseKeypair url, n, c⟩
      [(t, .keypair keypair), (t, .sent a), (t, .next m), (t, .sent b)]).map Prod.fst =
      some ⟨.authPayload url noise, n, c⟩ := by
  rcases hs : noiseStart snow cfg.noiseServerKey keypair with e | ⟨noise₁, b₁⟩
  · simp [handleNoiseHandshake, hs, bind, Except.bind] at h
  · rcases a with e | ⟨⟩
    · simp [handleNoiseHandshake, hs, bind, Except.bind, Except.mapError] at h
    · rcases hr : noiseReply noise₁ m with e | ⟨noise₂, b₂⟩
      · simp [handleNoiseHandshake, hs, hr, bind, Except.bind, Except.mapError] at h
      · rcases b with e | ⟨⟩
        · simp [handleNoiseHandshake, hs, hr, bind, Except.bind, Except.mapError] at h
        · have hf : noiseFinish noise₂ = .ok noise := by
            simpa [handleNoiseHandshake, hs, hr, bind, Except.bind, Except.mapError] using h
          simp [Mealy.run, Loop.machine, Loop.step, Loop.goto, hs, hr, hf]

/-- A peer with this static key takes part in the handshake. -/
def peerWith (key : Bytes) : NoisePeer where
  sendE _ := .ok ()
  answer _ := some (.ok (.binary (Ideal.messageTwo key)))
  sendS _ := .ok ()

/-- The pinned peer itself: the handshake succeeds, and the loop comes to the authentication. -/
theorem handleNoiseHandshake_pinned_iff_honest :
    (∃ noise, handleNoiseHandshake (Snow.ideal Ideal.genuine) (some (List.replicate 32 1))
        (.ok (List.replicate 32 7)) (peerWith (List.replicate 32 1)) = .ok noise) ∧
      ∀ noise, handleNoiseHandshake (Snow.ideal Ideal.genuine) (some (List.replicate 32 1))
          (.ok (List.replicate 32 7)) (peerWith (List.replicate 32 1)) = .ok noise →
        ∃ priv, .ok priv = (.ok (List.replicate 32 7) : Except Text Bytes) ∧
          (Ideal.xx Ideal.genuine).presentedBy priv (peerWith (List.replicate 32 1)) =
            some (List.replicate 32 1) := by
  have honly : ∀ priv, (.ok (List.replicate 32 7) : Except Text Bytes) = .ok priv →
      Accepted (Snow.ideal Ideal.genuine) priv (some (List.replicate 32 1)) → ∀ key,
        (Ideal.xx Ideal.genuine).Completes priv (peerWith (List.replicate 32 1)) key →
          key = List.replicate 32 1 := by
    rintro _ ⟨⟩ - key ⟨-, m, hm, hkey, -⟩
    cases hm
    exact Option.some.inj (hkey.symm.trans (by decide))
  refine ⟨⟨_, rfl⟩, ?_⟩
  intro noise h
  obtain ⟨priv, hp, hk⟩ :=
    (handleNoiseHandshake_pinned_iff (Ideal.xx Ideal.genuine) _ _ _).mpr honly noise h
  exact ⟨priv, hp.symm, hk⟩

theorem handleNoiseHandshake_impostor : ∃ noise,
    handleNoiseHandshake (Snow.ideal Ideal.genuine) (some (List.replicate 32 1))
        (.ok (List.replicate 32 7)) (peerWith (List.replicate 32 2)) = .ok noise ∧
      (Ideal.xx Ideal.genuine).presentedBy (List.replicate 32 7) (peerWith (List.replicate 32 2)) =
        some (List.replicate 32 2) ∧
      List.replicate 32 2 ≠ List.replicate 32 (1 : UInt8) :=
  ⟨_, rfl, by decide, by decide⟩

end NotifiTransport

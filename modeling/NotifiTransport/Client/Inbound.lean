import NotifiTransport.Client.Handshake
import NotifiTransport.Client.MessageLoop
import NotifiTransport.Crypto.Ideal
import NotifiTransport.Frame.Postcard
import NotifiTransport.Frame.Receiver

/-! # Inbound frames of the message loop

The message loop is a receiver: apart from the packets it takes, it only writes on the
session or returns. So all it dispatches is what a receiver makes of its packets.
-/

namespace NotifiTransport

def Effect.dispatched? : Effect → Option Frame
  | .dispatch f => some f
  | _ => none

/-- The frames that a trace dispatches, in order. -/
def dispatched (tr : List Effect) : List Frame := tr.filterMap Effect.dispatched?

namespace MsgLoop

variable {snow : Snow} {pc : Postcard} {cfg : WsClientConfig} {now : ℕ} {m : MsgLoop snow}
  {i : Input} {r : Option (MsgLoop snow) × List Effect}

/-- The loop returns, or goes on with the same accumulator and at most writes. -/
def Writes (m : MsgLoop snow) (r : Option (MsgLoop snow) × List Effect) : Prop :=
  dispatched r.2 = [] ∧ ∀ m', r.1 = some m' → m'.accumulator = m.accumulator ∧
    (m'.noise = m.noise ∨ ∃ payload, m'.noise = (m.noise.encryptChunked payload).1)

theorem Writes.returns {o : List Effect} (h : dispatched o = []) : Writes m (none, o) :=
  ⟨h, by simp⟩

theorem Writes.same {m' : MsgLoop snow} {o : List Effect} (h : dispatched o = [])
    (ha : m'.accumulator = m.accumulator) (hn : m'.noise = m.noise) : Writes m (some m', o) := by
  refine ⟨h, ?_⟩
  rintro _ ⟨⟩
  exact ⟨ha, Or.inl hn⟩

theorem writes_writeChunks {m' : MsgLoop snow} {noise : NoiseSession snow} {payload : Bytes}
    {e : Except CryptoError (List Bytes)} {o : List Effect}
    (hn : m.noise.encryptChunked payload = (noise, e)) (ho : dispatched o = [])
    (ha : m'.accumulator = m.accumulator) (hm : m'.noise = noise) : Writes m (some m', o) := by
  refine ⟨ho, ?_⟩
  rintro _ ⟨⟩
  exact ⟨ha, Or.inr ⟨payload, by rw [hm, hn]⟩⟩

theorem writes_pump (m : MsgLoop snow) : Writes m (m.pump pc) := by
  rcases m.pump_cases pc with ⟨_, -, h⟩ | h | ⟨f, _, _, _, chunks, -, -, hs, h⟩ <;> rw [h]
  · exact .same rfl rfl rfl
  · exact .returns rfl
  · cases chunks <;> exact writes_writeChunks hs rfl rfl rfl

theorem writes_onHeartbeat (m : MsgLoop snow) : Writes m (m.onHeartbeat pc cfg now) := by
  rcases m.onHeartbeat_cases pc cfg now with
    h | h | ⟨_, _, _, -, hs, ⟨_, -, h⟩ | ⟨chunks, -, h⟩⟩ <;> rw [h]
  · exact .same rfl rfl rfl
  · exact .same rfl rfl rfl
  · exact writes_writeChunks hs rfl rfl rfl
  · cases chunks <;> exact writes_writeChunks hs rfl rfl rfl

/-- A step takes a packet, or is one that any receiver can make without a packet. -/
theorem step_cases (h : m.step pc cfg now i = some r) :
    (∃ data, i = .next (some (.ok (.binary data))) ∧ r = m.onPacket pc cfg now data) ∨
      Writes m r := by
  unfold step at h
  split at h
  · split at h <;> cases h
    · exact Or.inr (.returns rfl)
    · exact Or.inl ⟨_, rfl, rfl⟩
    · exact Or.inr (.returns rfl)
    · next c =>
      apply Or.inr
      cases c with
      | send frame priority => exact writes_pump _
      | endpointChanged | reconnect | wakeUp => exact .same rfl rfl rfl
    · exact Or.inr (writes_onHeartbeat m)
  all_goals refine Or.inr ?_
  · next f rest _ =>
    split at h <;> cases h
    · cases rest <;> exact .same rfl rfl rfl
    · exact .returns rfl
  · split at h <;> cases h
    · next c => cases c <;> exact .same rfl rfl rfl
    · split
      · exact .same rfl rfl rfl
      · exact writes_pump m
  · split at h <;> cases h
    exact .same rfl rfl rfl
  · next rest _ =>
    split at h <;> cases h
    · cases rest <;> exact .same rfl rfl rfl
    · exact .same rfl rfl rfl
  · split at h <;> cases h
    exact .returns rfl

/-- The receiver inside the message loop. -/
def inbound (s : Option (MsgLoop snow)) : Option (NoiseSession snow × FrameAccumulator) :=
  s.map fun m => (m.noise, m.accumulator)

theorem receiver_simulates_step {s s' : Option (MsgLoop snow)} {i : ℕ × Input} {o : List Effect}
    (h : (machine pc cfg snow).step s i = some (s', o)) :
    ∃ js, (receiver pc cfg.maxPayloadBytes snow).run (inbound s) js =
      some (inbound s', dispatched o) := by
  rcases s with _ | m
  · cases h
  obtain ⟨⟨s₁, o₁⟩, hs, ho⟩ := Option.map_eq_some_iff.mp h
  cases ho
  rcases step_cases hs with ⟨data, hi, hr⟩ | ⟨ho, hw⟩
  · refine ⟨[.packet data], ?_⟩
    have ho : dispatched (.resumed i.2 :: o₁) = dispatched o₁ := rfl
    rw [ho]
    unfold onPacket at hr
    dsimp only at hr
    split at hr <;> cases hr
    · next e he => simp [Mealy.run, receiver, inbound, he, dispatched]
    · next f he =>
      cases f <;> simp [Mealy.run, receiver, inbound, he, dispatched, Effect.dispatched?]
  · have ho' : dispatched (.resumed i.2 :: o₁) = [] := ho
    rw [ho']
    rcases s₁ with _ | m'
    · exact ⟨[.stop], rfl⟩
    · obtain ⟨ha, hn | ⟨payload, hn⟩⟩ := hw m' rfl
      · exact ⟨[], by simp [inbound, ha, hn]⟩
      · exact ⟨[.write payload], by simp [Mealy.run, receiver, inbound, ha, hn]⟩

theorem receiver_simulates {s s' : Option (MsgLoop snow)} {is : List (ℕ × Input)}
    {tr : List Effect} (h : (machine pc cfg snow).run s is = some (s', tr)) :
    ∃ js, (receiver pc cfg.maxPayloadBytes snow).run (inbound s) js =
      some (inbound s', dispatched tr) :=
  Mealy.run_simulation inbound Effect.dispatched? (fun _ _ _ _ => receiver_simulates_step) h

/-- Nothing is dispatched from the first rejected packet on. -/
theorem dispatched_of_rejected {s₀ : Option (MsgLoop snow)} {pre post : List (ℕ × Input)}
    {now : ℕ} {t : Option (MsgLoop snow)} {tr tr₀ : List Effect} {data : Bytes}
    {e : TransportError}
    (h : (machine pc cfg snow).run s₀ (pre ++ (now, .next (some (.ok (.binary data)))) :: post) =
      some (t, tr))
    (hp : (machine pc cfg snow).run s₀ pre = some (some m, tr₀))
    (he : receive pc m.noise m.accumulator data cfg.maxPayloadBytes = .error e) :
    dispatched tr = dispatched tr₀ := by
  obtain ⟨s', o, tr', hs, hr, rfl⟩ := Mealy.run_at h hp
  obtain ⟨⟨s₁, o₁⟩, hst, ho⟩ := Option.map_eq_some_iff.mp hs
  cases ho
  have hsel : m.phase = .select := by
    cases hp : m.phase <;> simp [step, hp] at hst ⊢
  have hend : s₁ = none ∧ o₁ = [] := by
    simp only [step, hsel, onPacket, he, Option.some.injEq, Prod.mk.injEq] at hst
    exact ⟨hst.1.symm, hst.2.symm⟩
  obtain ⟨rfl, rfl⟩ := hend
  obtain ⟨js, hjs⟩ := receiver_simulates hr
  have htr : dispatched tr' = [] := receiver_none hjs
  simp only [dispatched, List.filterMap_append] at htr ⊢
  simp [htr, Effect.dispatched?]

/-- A loop that takes one packet after another does what `receiveAll` does. -/
theorem run_packets {cs : List Bytes} {is : List (ℕ × Input)} {fs : List Frame}
    {noise : NoiseSession snow} {acc : FrameAccumulator} (hm : m.phase = .select)
    (hi : is.map Prod.snd = cs.map fun c => .next (some (.ok (.binary c))))
    (h : receiveAll pc m.noise m.accumulator cfg.maxPayloadBytes cs = .ok (noise, acc, fs)) :
    ∃ m' tr, (machine pc cfg snow).run (some m) is = some (some m', tr) ∧
      m'.accumulator = acc ∧ dispatched tr = fs := by
  induction cs generalizing m is fs with
  | nil =>
    obtain rfl : is = [] := by simpa using hi
    cases h
    exact ⟨m, [], rfl, rfl, rfl⟩
  | cons c cs ih =>
    obtain ⟨⟨t, i⟩, is, rfl⟩ : ∃ i js, is = i :: js :=
      List.exists_cons_of_ne_nil (by rintro rfl; simp at hi)
    simp only [List.map_cons, List.cons.injEq] at hi
    obtain ⟨rfl, hi⟩ := hi
    obtain ⟨noise₁, acc₁, g, gs, hr, hrest, rfl⟩ := receiveAll_cons_ok h
    have hs : m.step pc cfg t (.next (some (.ok (.binary c)))) =
        some (m.onPacket pc cfg t c) := by simp [step, hm]
    simp only [onPacket, hr] at hs
    obtain ⟨m', tr, hrun, ha, hd⟩ := ih (m := { m with
      noise := noise₁, accumulator := acc₁
      heartbeatDeadline := t + cfg.heartbeatInterval.nanos, waitingForPong := false }) hm hi hrest
    have hstep := congrArg (Option.map fun r : Option (MsgLoop snow) × List Effect =>
      (r.1, Effect.resumed (.next (some (.ok (.binary c)))) :: r.2)) hs
    refine ⟨m', _, Mealy.run_cons.mpr ⟨_, _, tr, hstep, hrun, rfl⟩, ha, ?_⟩
    rw [← hd]
    cases g <;> rfl

end MsgLoop

section

variable {snow : Snow} {pc : Postcard} {b b' : NoiseSession snow} {acc : FrameAccumulator}
  {cs ps : List Bytes} {f : Frame} {maxBytes : ℕ}

/-- `recv_one_frame` waits for the packet that completes the frame, and reads no further. -/
theorem recvOneFrame_of_assembles (hr : NoiseSession.Reads b cs ps b')
    (h : Assembles pc maxBytes f acc ps) :
    recvOneFrame pc b acc maxBytes (cs.map fun c => some (.ok (.binary c))) = some (b', .ok f) ∧
      ∀ q, q <+: cs → q ≠ cs →
        recvOneFrame pc b acc maxBytes (q.map fun c => some (.ok (.binary c))) = none := by
  induction hr generalizing acc with
  | nil b => cases h
  | @cons b b₁ b' c p cs ps hc hrest ih =>
    cases h with
    | last hl =>
      cases hrest
      refine ⟨by simp [recvOneFrame, receive_of_read hc hl], fun q hq hne => ?_⟩
      obtain rfl : q = [] := by
        rcases List.prefix_cons_iff.mp hq with h | ⟨t, rfl, ht⟩
        · exact h
        · rw [List.prefix_nil.mp ht] at hne
          exact absurd rfl hne
      rfl
    | more hm hrest' =>
      obtain ⟨hf, hq⟩ := ih hrest'
      refine ⟨by simp [recvOneFrame, receive_of_read hc hm, hf], fun q hpre hne => ?_⟩
      rcases List.prefix_cons_iff.mp hpre with rfl | ⟨t, rfl, ht⟩
      · rfl
      · have hne' : t ≠ cs := fun e => hne (by rw [e])
        simp [recvOneFrame, receive_of_read hc hm, hq t ht hne']

/-- The frames sent on one session come out of the other one, also when `recv_one_frame`
takes the first of them and the message loop starts over with a new accumulator. -/
theorem sendFrames_received {a : NoiseSession snow} (cfg : WsClientConfig) (fs : List Frame)
    {R : snow.Transport → snow.Transport → Prop} (hR : Paired snow R) (hpc : pc.Lawful)
    (hb : ∀ f ∈ fs, ∃ p, pc.toStdvec f = .ok p ∧ p.length < 2 ^ 32 ∧
      p.length ≤ cfg.maxPayloadBytes)
    (h : NoiseSession.Peers R a b) :
    ∃ packets a' b', sendFrames pc a fs = (a', .ok packets) ∧
      receiveAll pc b .new cfg.maxPayloadBytes packets = .ok (b', .new, fs) ∧
      NoiseSession.Peers R a' b' ∧
      ∀ f gs, fs = f :: gs → ∃ first rest b₁, packets = first ++ rest ∧
        recvOneFrame pc b .new cfg.maxPayloadBytes
          (first.map fun c => some (.ok (.binary c))) = some (b₁, .ok f) ∧
        (∀ q, q <+: first → q ≠ first → recvOneFrame pc b .new cfg.maxPayloadBytes
          (q.map fun c => some (.ok (.binary c))) = none) ∧
        ∀ now is, is.map Prod.snd = rest.map (fun c => .next (some (.ok (.binary c)))) →
          ∃ m tr, (MsgLoop.machine pc cfg snow).run (some (.start cfg now b₁)) is =
            some (some m, tr) ∧ m.accumulator = .new ∧ dispatched tr = gs := by
  have hp : ∀ f ∈ fs, ∃ p, pc.toStdvec f = .ok p := fun f hf => (hb f hf).imp fun _ h => h.1
  cases fs with
  | nil =>
    exact ⟨[], a, b, rfl, rfl, h, by simp⟩
  | cons f gs =>
    obtain ⟨p, hfp, hlt, hle⟩ := hb f List.mem_cons_self
    obtain ⟨first, a₁, b₁, hs, hr, h₁⟩ := h.encryptChunked hR (toLE32 p.length ++ p)
    obtain ⟨rest, chunks, a₂, b₂, hs', hc, hr', h₂⟩ :=
      h₁.sendFrames hR fun g hg => hp g (List.mem_cons_of_mem _ hg)
    have hf : Assembles pc cfg.maxPayloadBytes f .new
        (pieces maxChunkPlain (toLE32 p.length ++ p)) :=
      assembles_pieces (hpc.decodeFrame_payload hfp) hlt hle rfl
    have hrest : absorbAll pc .new cfg.maxPayloadBytes chunks = (gs, .ok .new) :=
      absorbAll_plainChunks hpc (fun g hg => hb g (List.mem_cons_of_mem _ hg)) hc
    have hall : absorbAll pc .new cfg.maxPayloadBytes
        (pieces maxChunkPlain (toLE32 p.length ++ p) ++ chunks) = (f :: gs, .ok .new) := by
      rw [absorbAll_append hf.absorbAll, hrest]
      rfl
    refine ⟨first ++ rest, a₂, b₂, sendFrames_cons hfp hs hs', (hr.append hr').receiveAll hall, h₂,
      ?_⟩
    rintro _ _ ⟨⟩
    obtain ⟨hone, hwait⟩ := recvOneFrame_of_assembles hr hf
    refine ⟨first, rest, b₁, rfl, hone, hwait, fun now is hi => ?_⟩
    exact MsgLoop.run_packets rfl hi (hr'.receiveAll hrest)

theorem sendFrames_received_ideal : ∃ packets a' b',
    sendFrames .wire (Ideal.session Ideal.genuine) [⟨1, .message, [7]⟩, ⟨0, .event, [1, 2]⟩] =
        (a', .ok packets) ∧
      receiveAll .wire (Ideal.session Ideal.genuine) .new WsClientConfig.sample.maxPayloadBytes
        packets = .ok (b', .new, [⟨1, .message, [7]⟩, ⟨0, .event, [1, 2]⟩]) := by
  have hb : ∀ f ∈ [(⟨1, .message, [7]⟩ : Frame), ⟨0, .event, [1, 2]⟩], ∃ p,
      Postcard.wire.toStdvec f = .ok p ∧ p.length < 2 ^ 32 ∧
        p.length ≤ WsClientConfig.sample.maxPayloadBytes := by
    simp only [List.forall_mem_cons]
    exact ⟨⟨_, rfl, by decide, by decide⟩, ⟨_, rfl, by decide, by decide⟩, by simp⟩
  obtain ⟨packets, a', b', hs, hr, -⟩ := sendFrames_received .sample _ Ideal.paired
    Postcard.wire_lawful hb ⟨⟨0, 0⟩, ⟨0, 0⟩, rfl, rfl, rfl⟩
  exact ⟨packets, a', b', hs, hr⟩

end

end NotifiTransport

import NotifiTransport.Client.Inbound
import NotifiTransport.Server.Session

/-! # Inbound frames of the server session

The session is a receiver as well. With the two simulations, what either side hands on is a
prefix of what the other side has sent, against any network, and ends with the first packet
that is rejected.
-/

namespace NotifiTransport

def SessionEffect.handled? : SessionEffect → Option Frame
  | .handled f => some f
  | _ => none

/-- The frames that a trace decodes and handles, in order. -/
def handled (tr : List SessionEffect) : List Frame := tr.filterMap SessionEffect.handled?

namespace Session

variable {snow : Snow} {pc : Postcard} {cfg : SessionConfig} {now : ℕ} {s : Session snow}
  {i : SessionInput} {r : Session snow × List SessionEffect}

/-- The session leaves its loop, or goes on with the same accumulator and at most writes. -/
def Writes (s : Session snow) (r : Session snow × List SessionEffect) : Prop :=
  handled r.2 = [] ∧ (r.1.phase = .closing ∨ r.1.accumulator = s.accumulator ∧
    (r.1.noise = s.noise ∨ ∃ payload, r.1.noise = (s.noise.encryptChunked payload).1))

theorem writes_finish (s s' : Session snow) : Writes s s'.finish := ⟨rfl, Or.inl rfl⟩

theorem Writes.same {s' : Session snow} {o : List SessionEffect} (h : handled o = [])
    (ha : s'.accumulator = s.accumulator) (hn : s'.noise = s.noise) : Writes s (s', o) :=
  ⟨h, Or.inr ⟨ha, Or.inl hn⟩⟩

theorem Writes.chunks {s' : Session snow} {noise : NoiseSession snow} {payload : Bytes}
    {e : Except CryptoError (List Bytes)} {o : List SessionEffect}
    (hn : s.noise.encryptChunked payload = (noise, e)) (ho : handled o = [])
    (ha : s'.accumulator = s.accumulator) (hs : s'.noise = noise) : Writes s (s', o) :=
  ⟨ho, Or.inr ⟨ha, Or.inr ⟨payload, by rw [hs, hn]⟩⟩⟩

theorem writes_pump (s : Session snow) : Writes s (s.pump pc) := by
  rcases s.pump_cases pc with ⟨_, -, h⟩ | ⟨s', h⟩ | ⟨f, _, _, _, chunks, -, hs, h⟩ <;> rw [h]
  · exact .same rfl rfl rfl
  · exact writes_finish s s'
  · cases chunks <;> exact .chunks hs rfl rfl rfl

theorem writes_onHeartbeat (s : Session snow) : Writes s (s.onHeartbeat pc cfg now) := by
  rcases s.onHeartbeat_cases pc cfg now with h | h | ⟨_, _, _, hs, h | ⟨chunks, h⟩⟩ <;> rw [h]
  · exact writes_finish s s
  · exact .same rfl rfl rfl
  · exact .chunks hs rfl rfl rfl
  · cases chunks <;> exact .chunks hs rfl rfl rfl

/-- A step takes a packet, or is one that any receiver can make without a packet. -/
theorem step_cases {r : Option (Session snow) × List SessionEffect}
    (h : s.step pc cfg now i = some r) :
    (∃ data, s.phase = .select ∧ i = .next (some (.ok (.binary data))) ∧
        r = (some (s.onPacket pc cfg now data).1, (s.onPacket pc cfg now data).2)) ∨
      (∃ s' o, r = (some s', o) ∧ s.phase ≠ .closing ∧ Writes s (s', o)) ∨
      s.phase = .closing ∧ r = (none, []) := by
  unfold step at h
  split at h <;> cases h
  · next data hp => exact Or.inl ⟨data, hp, rfl, rfl⟩
  on_goal 11 => next hp => exact Or.inr (Or.inr ⟨hp, rfl⟩)
  all_goals refine Or.inr (Or.inl ⟨_, _, rfl, by simp [*], ?_⟩)
  · exact writes_finish s s
  · next c hp =>
    cases c with
    | send frame priority => exact .same rfl rfl rfl
    | close => exact writes_finish s s
  · exact writes_onHeartbeat s
  · exact .same rfl rfl rfl
  · exact writes_finish s s
  · exact writes_pump s
  · next f rest hp => cases rest <;> exact .same rfl rfl rfl
  · exact writes_finish s s
  · next rest hp => cases rest <;> exact .same rfl rfl rfl
  · exact .same rfl rfl rfl

/-- The receiver inside the session, until it leaves its loop. -/
def inbound (s : Option (Session snow)) : Option (NoiseSession snow × FrameAccumulator) :=
  s.bind fun s => if s.phase = .closing then none else some (s.noise, s.accumulator)

theorem onPacket_error {e : TransportError} {data : Bytes}
    (h : receive pc s.noise s.accumulator data cfg.maxBytes = .error e) :
    s.onPacket pc cfg now data = s.finish := by
  simp [onPacket, h]

theorem onPacket_ok (now : ℕ) {noise : NoiseSession snow} {acc : FrameAccumulator}
    {f : Option Frame} {data : Bytes} (hs : s.phase = .select)
    (h : receive pc s.noise s.accumulator data cfg.maxBytes = .ok (noise, acc, f)) :
    handled (s.onPacket pc cfg now data).2 = f.toList ∧
      inbound (some (s.onPacket pc cfg now data).1) = some (noise, acc) := by
  rcases f with _ | f
  · simp [onPacket, h, inbound, handled, hs]
  · rcases hk : f.kind <;>
      simp [onPacket, h, handle, hk, inbound, handled, SessionEffect.handled?, hs]

theorem receiver_simulates_step {s s' : Option (Session snow)} {i : ℕ × SessionInput}
    {o : List SessionEffect} (h : (machine pc cfg snow).step s i = some (s', o)) :
    ∃ js, (receiver pc cfg.maxBytes snow).run (inbound s) js = some (inbound s', handled o) := by
  rcases s with _ | s
  · cases h
  obtain ⟨⟨s₁, o₁⟩, hs, ho⟩ := Option.map_eq_some_iff.mp h
  cases ho
  have ho : handled (.resumed i.2 :: o₁) = handled o₁ := rfl
  rw [ho]
  rcases step_cases hs with ⟨data, hp, hi, hr⟩ | ⟨s₂, o₂, hr, hp, hw⟩ | ⟨hp, hr⟩
  · cases hr
    refine ⟨[.packet data], ?_⟩
    rcases hrec : receive pc s.noise s.accumulator data cfg.maxBytes with e | ⟨noise, acc, f⟩
    · rw [onPacket_error hrec]
      simp [Mealy.run, receiver, inbound, hp, hrec, finish, handled, SessionEffect.handled?]
    · obtain ⟨hh, hin⟩ := onPacket_ok i.1 hp hrec
      rw [hh, hin]
      simp [Mealy.run, receiver, inbound, hp, hrec]
  · cases hr
    obtain ⟨hh, hw⟩ := hw
    dsimp only at hh hw
    rw [hh]
    by_cases hc : s₂.phase = .closing
    · exact ⟨[.stop], by simp [Mealy.run, receiver, inbound, hp, hc]⟩
    · obtain ⟨ha, hn | ⟨payload, hn⟩⟩ := hw.resolve_left hc
      · exact ⟨[], by simp [inbound, hp, hc, ha, hn]⟩
      · exact ⟨[.write payload], by simp [Mealy.run, receiver, inbound, hp, hc, ha, hn]⟩
  · cases hr
    exact ⟨[], by simp [inbound, hp, handled]⟩

theorem receiver_simulates {s s' : Option (Session snow)} {is : List (ℕ × SessionInput)}
    {tr : List SessionEffect} (h : (machine pc cfg snow).run s is = some (s', tr)) :
    ∃ js, (receiver pc cfg.maxBytes snow).run (inbound s) js = some (inbound s', handled tr) :=
  Mealy.run_simulation inbound SessionEffect.handled? (fun _ _ _ _ => receiver_simulates_step) h

/-- Nothing is handled from the first rejected packet on. -/
theorem handled_of_rejected {s₀ : Option (Session snow)} {pre post : List (ℕ × SessionInput)}
    {now : ℕ} {t : Option (Session snow)} {tr tr₀ : List SessionEffect} {data : Bytes}
    {e : TransportError}
    (h : (machine pc cfg snow).run s₀ (pre ++ (now, .next (some (.ok (.binary data)))) :: post) =
      some (t, tr))
    (hp : (machine pc cfg snow).run s₀ pre = some (some s, tr₀))
    (he : receive pc s.noise s.accumulator data cfg.maxBytes = .error e) :
    handled tr = handled tr₀ := by
  obtain ⟨s', o, tr', hs, hr, rfl⟩ := Mealy.run_at h hp
  obtain ⟨⟨s₁, o₁⟩, hst, ho⟩ := Option.map_eq_some_iff.mp hs
  cases ho
  have hsel : s.phase = .select := by
    cases hp : s.phase <;> simp [step, hp] at hst ⊢
  have hfin : s₁ = some s.finish.1 ∧ o₁ = s.finish.2 := by
    simp only [step, hsel, onPacket_error he, Option.some.injEq, Prod.mk.injEq] at hst
    exact ⟨hst.1.symm, hst.2.symm⟩
  obtain ⟨rfl, rfl⟩ := hfin
  obtain ⟨js, hjs⟩ := receiver_simulates hr
  have htr : handled tr' = [] := receiver_none hjs
  simp only [handled, List.filterMap_append] at htr ⊢
  simp [htr, finish, SessionEffect.handled?]

end Session

section

variable {snow : Snow} {pc : Postcard} {peer peer' noise : NoiseSession snow} {fs : List Frame}
  {packets chunks : List Bytes} {earlier : List (Bytes × Bytes)} {pos : snow.Transport → ℕ}

/-- What the client dispatches and what the server handles is a prefix of the frames that
the peer sent, and nothing comes after the first rejected packet. -/
theorem inbound_frames_authentic (hpc : pc.Lawful) (hb : PayloadsBelow pc (2 ^ 32) fs)
    (hs : sendFrames pc peer fs = (peer', .ok packets)) (hc : plainChunks pc fs = .ok chunks)
    (hA : Authentic snow (earlier ++ packets.zip chunks) pos)
    (hn : NoiseSession.AtPos pos earlier.length noise) :
    (∀ cfg now is t tr,
      (MsgLoop.machine pc cfg snow).run (some (.start cfg now noise)) is = some (t, tr) →
      dispatched tr <+: fs ∧
      ∀ pre now' data post m tr₀ e, is = pre ++ (now', .next (some (.ok (.binary data)))) :: post →
        (MsgLoop.machine pc cfg snow).run (some (.start cfg now noise)) pre = some (some m, tr₀) →
        receive pc m.noise m.accumulator data cfg.maxPayloadBytes = .error e →
        dispatched tr = dispatched tr₀) ∧
    ∀ cfg now is t tr,
      (Session.machine pc cfg snow).run (some (.start cfg now noise)) is = some (t, tr) →
      handled tr <+: fs ∧
      ∀ pre now' data post s tr₀ e, is = pre ++ (now', .next (some (.ok (.binary data)))) :: post →
        (Session.machine pc cfg snow).run (some (.start cfg now noise)) pre = some (some s, tr₀) →
        receive pc s.noise s.accumulator data cfg.maxBytes = .error e →
        handled tr = handled tr₀ := by
  obtain ⟨chunks', hc', hl⟩ := sendFrames_ok hs
  obtain rfl : chunks' = chunks := Except.ok.inj (hc'.symm.trans hc)
  have hsent : ((earlier ++ packets.zip chunks').drop earlier.length).map Prod.snd = chunks' := by
    rw [List.drop_left, List.map_snd_zip hl.le]
  constructor
  · intro cfg now is t tr h
    obtain ⟨js, hjs⟩ := MsgLoop.receiver_simulates h
    refine ⟨receiver_le hpc hb hc hA hsent hn hjs, ?_⟩
    rintro pre now' data post m tr₀ e rfl hp he
    exact MsgLoop.dispatched_of_rejected h hp he
  · intro cfg now is t tr h
    obtain ⟨js, hjs⟩ := Session.receiver_simulates h
    refine ⟨receiver_le hpc hb hc hA hsent hn hjs, ?_⟩
    rintro pre now' data post s tr₀ e rfl hp he
    exact Session.handled_of_rejected h hp he

/-- The only packet of a peer that sends one frame. -/
def eventPacket : Bytes := toLE32 4 ++ [0, 1, 1, 9] ++ Ideal.tag 0

/-- The packet arrives twice. -/
theorem inbound_frames_authentic_ideal : ∃ t tr,
    (MsgLoop.machine .wire .sample (Snow.ideal fun n c => [eventPacket][n]? == some c)).run
      (some (.start .sample 0 (Ideal.session _)))
      [(0, .next (some (.ok (.binary eventPacket)))), (1, .next (some (.ok (.binary eventPacket))))] =
        some (t, tr) ∧
    dispatched tr <+: [⟨0, .event, [9]⟩] := by
  have hb : PayloadsBelow .wire (2 ^ 32) [⟨0, .event, [9]⟩] := by
    intro f hf
    obtain rfl : f = ⟨0, .event, [9]⟩ := by simpa using hf
    exact ⟨_, rfl, by decide⟩
  have hs : sendFrames .wire (Ideal.session fun n c => [eventPacket][n]? == some c)
      [⟨0, .event, [9]⟩] = (⟨some (.transport ⟨1, 0⟩)⟩, .ok [eventPacket]) := rfl
  have hc : plainChunks .wire [⟨0, .event, [9]⟩] = .ok [Ideal.plain eventPacket] := rfl
  have hA : Authentic (Snow.ideal fun n c => [eventPacket][n]? == some c)
      ([] ++ [eventPacket].zip [Ideal.plain eventPacket]) Ideal.Transport.read :=
    Ideal.authentic [eventPacket]
  let r := (MsgLoop.machine .wire .sample (Snow.ideal fun n c => [eventPacket][n]? == some c)).run
    (some (.start .sample 0 (Ideal.session _)))
    [(0, .next (some (.ok (.binary eventPacket)))), (1, .next (some (.ok (.binary eventPacket))))]
  have h : r = some (r.get rfl) := (Option.some_get rfl).symm
  exact ⟨_, _, h, ((inbound_frames_authentic Postcard.wire_lawful hb hs hc hA
    (Or.inr ⟨_, rfl, rfl⟩)).1 .sample 0 _ _ _ h).1⟩

end

end NotifiTransport

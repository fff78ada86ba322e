import NotifiTransport.Frame.Sealed
import NotifiTransport.Lib.Duplex
import NotifiTransport.Server.Inbound

/-! # A connection of the server

A session is the other endpoint of the encrypted channel. It seals the frames of its commands, its
Pongs and its Pings, and handles the frames that its packets complete.
-/

namespace NotifiTransport

@[simp] theorem handled_append (tr tr' : List SessionEffect) :
    handled (tr ++ tr') = handled tr ++ handled tr' :=
  List.filterMap_append

def SessionEffect.message? : SessionEffect → Option Message
  | .send m => some m
  | _ => none

/-- The packets of a sealed frame as messages of the server's socket. -/
def Sealed.messages {pc : Postcard} (w : Sealed pc) : List Message :=
  w.packets.map fun p => .binary p.1

theorem messages_sealFrame {pc : Postcard} {snow : Snow} {noise noise' : NoiseSession snow}
    {f : Frame} {encoded : Bytes} {packets : List Bytes} (queue : Option (Fin 4))
    (he : encodeFrame pc f = .ok encoded)
    (hs : noise.encryptChunked encoded = (noise', .ok packets)) :
    (sealFrame pc noise queue f).flatMap Sealed.messages = packets.map .binary := by
  rw [← wirePackets_sealFrame queue he hs, wirePackets, List.map_map, List.map_flatMap]
  rfl

namespace Session

variable {snow : Snow}

def seals (pc : Postcard) (s : Session snow) (i : SessionInput) : List (Sealed pc) :=
  match s.phase, i with
  | .pumping, .proceed => sealNext pc s.noise s.scheduler
  | .select, .elapsed => if s.waitingForPong then [] else sealFrame pc s.noise none pingFrame
  | _, _ => []

def opens (s : Session snow) (i : SessionInput) : List (Bytes × Bytes) :=
  match s.phase, i with
  | .select, .next (some (.ok (.binary data))) => openPacket s.noise data
  | _, _ => []

/-- The session as an endpoint; a session that has returned does nothing. -/
def conversation (pc : Postcard) (cfg : SessionConfig) (snow : Snow) :
    Endpoint (Option (Session snow)) (ℕ × SessionInput) SessionEffect (Sealed pc)
      (Bytes × Bytes) where
  toMealy := machine pc cfg snow
  seals s i := s.elim [] fun s => s.seals pc i.2
  opens s i := s.elim [] fun s => s.opens i.2

/-- The accumulator of the loop, until it is left. -/
def accumulator? (s : Option (Session snow)) : Option FrameAccumulator :=
  s.bind fun s => if s.phase = .closing then none else some s.accumulator

variable {pc : Postcard} {cfg : SessionConfig} {now : ℕ} {s : Session snow} {i : SessionInput}
  {r : Option (Session snow) × List SessionEffect} {opened : List (Bytes × Bytes)}
  {fs : List Frame}

theorem opens_eq_nil (hi : ∀ data, i ≠ .next (some (.ok (.binary data)))) : s.opens i = [] := by
  unfold opens
  split
  · exact absurd rfl (hi _)
  · rfl

theorem heard_onPacket (hp : s.phase = .select)
    (h : Heard pc cfg.maxBytes opened fs (some s.accumulator)) (data : Bytes) :
    Heard pc cfg.maxBytes (opened ++ openPacket s.noise data)
      (fs ++ handled (s.onPacket pc cfg now data).2)
      (accumulator? (some (s.onPacket pc cfg now data).1)) := by
  rcases hr : receive pc s.noise s.accumulator data cfg.maxBytes with e | ⟨noise, acc, f⟩
  · rw [onPacket_error hr]
    exact (congrArg (Heard _ _ _ · _) (List.append_nil fs)).mpr (h.more _)
  · obtain ⟨hh, hin⟩ := onPacket_ok now hp hr
    have ha : accumulator? (some (s.onPacket pc cfg now data).1) = some acc := by
      unfold inbound at hin
      simp only [Option.bind_some, Option.ite_none_left_eq_some, Option.some.injEq,
        Prod.mk.injEq] at hin
      simp [accumulator?, hin]
    rw [hh, ha]
    exact h.receive hr

/-- A step of the session handles what the packet it opens completes. -/
theorem step_heard (h : s.step pc cfg now i = some r)
    (hh : Heard pc cfg.maxBytes opened fs (accumulator? (some s))) :
    Heard pc cfg.maxBytes (opened ++ s.opens i) (fs ++ handled r.2) (accumulator? r.1) := by
  by_cases hi : ∃ data, i = .next (some (.ok (.binary data)))
  · obtain ⟨data, rfl⟩ := hi
    have hp : s.phase = .select := by cases hp : s.phase <;> simp [step, hp] at h ⊢
    simp only [step, hp, Option.some.injEq] at h
    subst h
    have ho : s.opens (.next (some (.ok (.binary data)))) = openPacket s.noise data := by
      simp only [opens, hp]
    have ha : accumulator? (some s) = some s.accumulator := by simp [accumulator?, hp]
    rw [ha] at hh
    rw [ho]
    exact heard_onPacket hp hh data
  · push Not at hi
    rw [opens_eq_nil hi, List.append_nil]
    rcases step_cases h with ⟨data, -, hd, -⟩ | ⟨s', o, rfl, hp, ho, hw⟩ | ⟨-, rfl⟩
    · exact absurd hd (hi data)
    · dsimp only at ho hw ⊢
      rw [ho, List.append_nil]
      by_cases hc : s'.phase = .closing
      · rw [accumulator?, Option.bind_some, if_pos hc]
        exact hh.stop
      · have ha : accumulator? (some s') = accumulator? (some s) := by
          simp [accumulator?, hp, hc, (hw.resolve_left hc).1]
        rw [ha]
        exact hh
    · exact (congrArg (Heard _ _ _ · _) (List.append_nil fs)).mpr hh.stop

theorem conversation_heard {noise : NoiseSession snow} {is : List (ℕ × SessionInput)}
    {tr : List SessionEffect} {t : Recorded (Option (Session snow)) (Sealed pc) (Bytes × Bytes)}
    (h : (conversation pc cfg snow).recorded.run (.fresh (some (start cfg now noise))) is =
      some (t, tr)) :
    Heard pc cfg.maxBytes t.opened (handled tr) (accumulator? t.state) := by
  refine Mealy.run_induction (P := fun _ tr t =>
    Heard pc cfg.maxBytes t.opened (handled tr) (accumulator? t.state)) heard_new ?_ h
  rintro is tr m x t o - hh hs
  obtain ⟨hst, -, ho⟩ := Endpoint.recorded_step.mp hs
  obtain ⟨s, r, hm, hr, hs', rfl⟩ := machine_step.mp hst
  rw [ho, hs', handled_append, hm]
  rw [hm] at hh
  exact step_heard hr hh

/-- The chunks on their way that are still to be sent. -/
def unsent (s : Session snow) : List Message :=
  match s.phase with
  | .writing _ rest => rest.map .binary
  | .pinging rest => rest.map .binary
  | _ => []

/-- What is written by `r` and what is left to be written is part of `available`. -/
def Sends (available : List Message) (r : Session snow × List SessionEffect) : Prop :=
  (r.2.filterMap SessionEffect.message? ++ r.1.unsent).Sublist available

theorem sends_nothing {available : List Message} {r : Session snow × List SessionEffect}
    (ho : r.2.filterMap SessionEffect.message? = []) (hu : r.1.unsent = []) :
    Sends available r := by
  rw [Sends, ho, hu]
  exact List.nil_sublist _

theorem sends_writeChunks (s : Session snow) (f : Frame) (cs : List Bytes) :
    Sends (cs.map .binary) (s.writeChunks f cs) := by
  cases cs <;> exact List.Sublist.refl _

theorem sends_pingChunks (s : Session snow) (cs : List Bytes) :
    Sends (cs.map .binary) (s.pingChunks cfg now cs) := by
  cases cs <;> exact List.Sublist.refl _

theorem sends_pump (s : Session snow) :
    Sends ((sealNext pc s.noise s.scheduler).flatMap Sealed.messages) (s.pump pc) := by
  unfold pump
  split
  · exact sends_nothing rfl rfl
  · next f scheduler hpop =>
    split
    · exact sends_nothing rfl rfl
    · next encoded he =>
      split
      · exact sends_nothing rfl rfl
      · next noise chunks hs =>
        rw [sealNext, hpop, messages_sealFrame _ he hs]
        exact sends_writeChunks { s with scheduler, noise } f chunks

theorem sends_onHeartbeat (s : Session snow) :
    Sends ((if s.waitingForPong then [] else sealFrame pc s.noise none pingFrame).flatMap
      Sealed.messages) (s.onHeartbeat pc cfg now) := by
  unfold onHeartbeat
  split
  · exact sends_nothing rfl rfl
  · split
    · exact sends_nothing rfl rfl
    · next encoded he =>
      split
      · exact sends_nothing rfl rfl
      · next noise chunks hs =>
        rw [messages_sealFrame (f := pingFrame) _ he hs]
        exact sends_pingChunks { s with noise } chunks

theorem sends_onPacket (hp : s.phase = .select) (data : Bytes) (available : List Message) :
    Sends available (s.onPacket pc cfg now data) := by
  unfold onPacket
  split
  · exact sends_nothing rfl rfl
  · next f _ =>
    rcases f with _ | f
    · exact sends_nothing rfl (by simp [unsent, hp])
    · unfold handle
      dsimp only
      split <;> exact sends_nothing rfl (by simp [unsent, hp])

theorem step_sends (h : s.step pc cfg now i = some r) :
    (r.2.filterMap SessionEffect.message? ++ r.1.elim [] unsent).Sublist
      (s.unsent ++ (s.seals pc i).flatMap Sealed.messages) := by
  unfold step at h
  split at h <;> cases h
  · next hp => exact sends_onPacket hp _ _
  · exact sends_nothing rfl rfl
  · next c hp => cases c <;> exact sends_nothing rfl rfl
  · next hp =>
    simp only [unsent, seals, hp]
    exact sends_onHeartbeat s
  · exact List.nil_sublist _
  · exact sends_nothing rfl rfl
  · next hp =>
    simp only [unsent, seals, hp]
    exact sends_pump s
  · next f rest hp =>
    simp only [unsent, seals, hp, List.flatMap_nil, List.append_nil]
    exact sends_writeChunks s f rest
  · exact sends_nothing rfl rfl
  · next rest hp =>
    simp only [unsent, seals, hp, List.flatMap_nil, List.append_nil]
    exact sends_pingChunks s rest
  · exact List.nil_sublist _
  · exact List.nil_sublist _

/-- Whatever a session writes is a packet of a sealed frame; the packets go out in the order in
which they were encrypted, and none of them twice. -/
theorem conversation_written {noise : NoiseSession snow} {is : List (ℕ × SessionInput)}
    {tr : List SessionEffect} {t : Recorded (Option (Session snow)) (Sealed pc) (Bytes × Bytes)}
    (h : (conversation pc cfg snow).recorded.run (.fresh (some (start cfg now noise))) is =
      some (t, tr)) :
    (tr.filterMap SessionEffect.message? ++ t.state.elim [] unsent).Sublist
      (t.sealed.flatMap Sealed.messages) := by
  refine Endpoint.recorded_written (·.elim [] unsent) SessionEffect.message? Sealed.messages ?_ rfl
    rfl h
  intro u x t o hs
  obtain ⟨s, r, rfl, hr, rfl, rfl⟩ := machine_step.mp hs
  exact step_sends hr

end Session

end NotifiTransport

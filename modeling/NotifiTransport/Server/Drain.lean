import NotifiTransport.Crypto.Ideal
import NotifiTransport.Frame.Postcard
import NotifiTransport.Server.Session
import Mathlib.Tactic.Abel

/-! # The scheduler of a waiting session

A session that waits in its `select!` has an empty scheduler, and has written all it has
queued, as long as it has decoded no Ping: the Pong is queued in a branch that does not
drain the scheduler.
-/

namespace NotifiTransport

def SessionEffect.queued? : SessionEffect → Option Frame
  | .queued f => some f
  | _ => none

def SessionEffect.wrote? : SessionEffect → Option Frame
  | .wrote f => some f
  | _ => none

/-- The frames that a trace has put in the scheduler. -/
def queuedFrames (tr : List SessionEffect) : Multiset Frame := tr.filterMap SessionEffect.queued?

/-- The frames of the scheduler that a trace has written to the socket. -/
def wroteFrames (tr : List SessionEffect) : Multiset Frame := tr.filterMap SessionEffect.wrote?

@[simp] theorem queuedFrames_nil : queuedFrames [] = 0 := rfl

@[simp] theorem queuedFrames_cons (e : SessionEffect) (tr : List SessionEffect) :
    queuedFrames (e :: tr) = (e.queued?.toList : Multiset Frame) + queuedFrames tr := by
  rcases h : e.queued? with _ | f <;> simp [queuedFrames, h]

@[simp] theorem queuedFrames_append (tr o : List SessionEffect) :
    queuedFrames (tr ++ o) = queuedFrames tr + queuedFrames o := by
  simp [queuedFrames]

@[simp] theorem wroteFrames_nil : wroteFrames [] = 0 := rfl

@[simp] theorem wroteFrames_cons (e : SessionEffect) (tr : List SessionEffect) :
    wroteFrames (e :: tr) = (e.wrote?.toList : Multiset Frame) + wroteFrames tr := by
  rcases h : e.wrote? with _ | f <;> simp [wroteFrames, h]

@[simp] theorem wroteFrames_append (tr o : List SessionEffect) :
    wroteFrames (tr ++ o) = wroteFrames tr + wroteFrames o := by
  simp [wroteFrames]

namespace Session

variable {snow : Snow} {pc : Postcard} {cfg : SessionConfig} {now : ℕ} {s s' : Session snow}
  {i : SessionInput} {tr : List SessionEffect}

/-- The frame that is being written. -/
def inFlight (s : Session snow) : Multiset Frame :=
  match s.phase with
  | .writing f _ => {f}
  | _ => 0

/-- No frame is lost between the queue and the socket while the session goes on. -/
def Balanced (s : Session snow) (tr : List SessionEffect) : Prop :=
  s.phase = .closing ∨ queuedFrames tr = wroteFrames tr + s.scheduler.items + s.inFlight

/-- Outside the branch of a `Send` command the scheduler is empty. -/
def Idle (s : Session snow) : Prop :=
  match s.phase with
  | .select | .inboxing | .pinging _ => s.scheduler.isEmpty = true
  | _ => True

/-- All that was queued has been written. -/
def Drained (s : Session snow) (tr : List SessionEffect) : Prop :=
  s.scheduler.isEmpty = true ∧ queuedFrames tr = wroteFrames tr

/-- The step does not decode a Ping. -/
def NoPing (pc : Postcard) (cfg : SessionConfig) (s : Option (Session snow))
    (i : ℕ × SessionInput) : Prop :=
  ∀ s₁ data noise acc f, s = some s₁ → i.2 = .next (some (.ok (.binary data))) →
    receive pc s₁.noise s₁.accumulator data cfg.maxBytes = .ok (noise, acc, some f) →
    f.kind ≠ .ping

/-- The books of one step: what is queued, waiting or in flight goes on, or is written. -/
def Conserves (s : Session snow) (r : Session snow × List SessionEffect) : Prop :=
  r.1.phase = .closing ∨ queuedFrames r.2 + s.scheduler.items + s.inFlight =
    wroteFrames r.2 + r.1.scheduler.items + r.1.inFlight

theorem conserves_finish (s s' : Session snow) : Conserves s s'.finish := Or.inl rfl

theorem conserves_same {o : List SessionEffect} (hs : s'.scheduler = s.scheduler)
    (hf : s'.inFlight = s.inFlight) (hq : queuedFrames o = 0) (hw : wroteFrames o = 0) :
    Conserves s (s', o) := by
  apply Or.inr
  rw [hs, hf, hq, hw]

theorem conserves_handle (hp : s.phase = .select) (f : Frame) : Conserves s (s.handle f) := by
  apply Or.inr
  rcases hk : f.kind <;>
    simp [handle, hk, SessionEffect.queued?, SessionEffect.wrote?, inFlight, hp,
      WfqScheduler.items_enqueue]

theorem conserves_onPacket (hp : s.phase = .select) (data : Bytes) :
    Conserves s (s.onPacket pc cfg now data) := by
  unfold onPacket
  split
  · exact conserves_finish s s
  · next noise acc f hr =>
    rcases f with _ | f
    · exact conserves_same rfl rfl rfl rfl
    · exact conserves_handle (s := { s with
        noise := noise, accumulator := acc
        heartbeatDeadline := now + cfg.heartbeatInterval, waitingForPong := false }) hp f

theorem conserves_onCmd (hp : s.phase = .select) (c : SessionCmd) : Conserves s (s.onCmd c) := by
  cases c with
  | send frame priority =>
    apply Or.inr
    simp [onCmd, SessionEffect.queued?, SessionEffect.wrote?, inFlight, hp,
      WfqScheduler.items_enqueue]
  | close => exact conserves_finish s s

/-- Writing a frame keeps it in flight until its last chunk is out. -/
theorem conserves_writeChunks {f : Frame}
    (hs : s.scheduler.items + s.inFlight = {f} + s'.scheduler.items) (cs : List Bytes) :
    Conserves s (s'.writeChunks f cs) := by
  apply Or.inr
  cases cs with
  | nil =>
    have hf : ({ s' with phase := .pumping } : Session snow).inFlight = 0 := rfl
    simp [writeChunks, SessionEffect.queued?, SessionEffect.wrote?, hs, hf]
  | cons c cs =>
    have hf : ({ s' with phase := .writing f cs } : Session snow).inFlight = {f} := rfl
    simp [writeChunks, SessionEffect.queued?, SessionEffect.wrote?, hs, hf, add_comm]

theorem conserves_pump (hp : s.phase = .pumping) : Conserves s (s.pump pc) := by
  have hf : s.inFlight = 0 := by simp [inFlight, hp]
  rcases s.pump_cases pc with
    ⟨scheduler, hpop, h⟩ | ⟨s', h⟩ | ⟨f, scheduler, _, noise, chunks, hpop, -, h⟩ <;> rw [h]
  · obtain ⟨he, he'⟩ := WfqScheduler.pop_none hpop
    rw [WfqScheduler.isEmpty_iff_items] at he he'
    have hf' : ({ s with scheduler, phase := .select } : Session snow).inFlight = 0 := rfl
    exact Or.inr (by simp [he, he', hf, hf'])
  · exact conserves_finish s s'
  · have hi := WfqScheduler.pop_some hpop
    exact conserves_writeChunks (by simp [hi, hf]) chunks

theorem conserves_pingChunks (hf : s.inFlight = 0) (hs : s'.scheduler = s.scheduler)
    (cs : List Bytes) : Conserves s (s'.pingChunks cfg now cs) := by
  cases cs <;> exact conserves_same hs hf.symm rfl rfl

theorem conserves_onHeartbeat (hp : s.phase = .select) :
    Conserves s (s.onHeartbeat pc cfg now) := by
  have hf : s.inFlight = 0 := by simp [inFlight, hp]
  rcases s.onHeartbeat_cases pc cfg now with h | h | ⟨_, noise, _, -, h | ⟨chunks, h⟩⟩ <;> rw [h]
  · exact conserves_finish s s
  · exact conserves_same rfl hf.symm rfl rfl
  · exact conserves_same rfl hf.symm rfl rfl
  · apply conserves_pingChunks hf
    rfl

theorem step_conserves {r : Option (Session snow) × List SessionEffect}
    (h : s.step pc cfg now i = some r) (hr : r.1 = some s') : Conserves s (s', r.2) := by
  unfold step at h
  split at h <;> cases h <;> cases hr
  · next hp => exact conserves_onPacket hp _
  · exact conserves_finish s s
  · next hp => exact conserves_onCmd hp _
  · next hp => exact conserves_onHeartbeat hp
  · next hp => exact conserves_same rfl (by simp [inFlight, hp]) rfl rfl
  · exact conserves_finish s s
  · next hp => exact conserves_pump hp
  · next f rest hp => exact conserves_writeChunks (by simp [inFlight, hp, add_comm]) rest
  · exact conserves_finish s s
  · next rest hp => exact conserves_pingChunks (by simp [inFlight, hp]) rfl rest
  · next hp => exact conserves_same rfl (by simp [inFlight, hp, pingSent]) rfl rfl

theorem run_balanced {noise : NoiseSession snow} {is : List (ℕ × SessionInput)}
    {t : Option (Session snow)}
    (h : (machine pc cfg snow).run (some (start cfg now noise)) is = some (t, tr)) :
    ∀ s, t = some s → Balanced s tr := by
  refine Mealy.run_induction (P := fun _ tr t => ∀ s, t = some s → Balanced s tr) ?_ ?_ h
  · rintro _ ⟨⟩
    exact Or.inr (by simp [start, inFlight])
  · rintro is tr t i t' o - hb hs s' rfl
    obtain ⟨s, r, rfl, hst, hr, rfl⟩ := machine_step.mp hs
    rcases hb s rfl with hp | hb
    · rw [step_of_closing hp hst] at hr
      cases hr
    · rcases step_conserves hst hr.symm with hp | hc
      · exact Or.inl hp
      · apply Or.inr
        simp only [queuedFrames_append, queuedFrames_cons, wroteFrames_append, wroteFrames_cons,
          SessionEffect.queued?, SessionEffect.wrote?, Option.toList_none, Multiset.coe_nil,
          zero_add]
        calc queuedFrames tr + queuedFrames r.2
            = wroteFrames tr + (queuedFrames r.2 + s.scheduler.items + s.inFlight) := by
              rw [hb]; abel
          _ = wroteFrames tr + wroteFrames r.2 + s'.scheduler.items + s'.inFlight := by
              rw [hc]; abel

theorem idle_handle (hp : s.phase = .select) (he : s.scheduler.isEmpty = true) {f : Frame}
    (hf : f.kind ≠ .ping) : Idle (s.handle f).1 := by
  unfold handle
  split
  · next hk => exact absurd hk hf
  · simpa [Idle, hp] using he
  · exact he

theorem idle_pump (s : Session snow) : Idle (s.pump pc).1 := by
  rcases s.pump_cases pc with
    ⟨scheduler, hpop, h⟩ | ⟨s', h⟩ | ⟨f, _, _, _, chunks, -, -, h⟩ <;> rw [h]
  · exact (WfqScheduler.pop_none hpop).2
  · trivial
  · cases chunks <;> trivial

theorem idle_pingChunks (he : s.scheduler.isEmpty = true) (cs : List Bytes) :
    Idle (s.pingChunks cfg now cs).1 := by
  cases cs <;> exact he

theorem idle_onHeartbeat (he : s.scheduler.isEmpty = true) :
    Idle (s.onHeartbeat pc cfg now).1 := by
  rcases s.onHeartbeat_cases pc cfg now with h | h | ⟨_, noise, _, -, h | ⟨chunks, h⟩⟩ <;> rw [h]
  · trivial
  · exact he
  · exact he
  · apply idle_pingChunks
    exact he

/-- A step that decodes no Ping keeps the scheduler of a waiting session empty. -/
theorem step_idle {i : ℕ × SessionInput} {r : Option (Session snow) × List SessionEffect}
    (h : s.step pc cfg i.1 i.2 = some r) (hr : r.1 = some s') (hn : NoPing pc cfg (some s) i)
    (hi : Idle s) : Idle s' := by
  obtain ⟨t, i⟩ := i
  dsimp only at h
  unfold step at h
  split at h <;> cases h <;> cases hr
  · next data hp =>
    simp only [Idle, hp] at hi
    unfold onPacket
    split
    · trivial
    · next noise acc f hrec =>
      rcases f with _ | f
      · simpa [Idle, hp] using hi
      · refine idle_handle ?_ ?_ (hn s data noise acc f rfl rfl hrec)
        · exact hp
        · exact hi
  · trivial
  · next c hp => cases c <;> trivial
  · next hp =>
    simp only [Idle, hp] at hi
    exact idle_onHeartbeat hi
  · next hp =>
    simp only [Idle, hp] at hi
    exact hi
  · trivial
  · exact idle_pump s
  · next f rest hp => cases rest <;> trivial
  · trivial
  · next rest hp =>
    simp only [Idle, hp] at hi
    exact idle_pingChunks hi rest
  · next hp =>
    simp only [Idle, hp] at hi
    exact hi

theorem run_idle {noise : NoiseSession snow} {is : List (ℕ × SessionInput)}
    {t : Option (Session snow)}
    (h : (machine pc cfg snow).run (some (start cfg now noise)) is = some (t, tr))
    (hn : (machine pc cfg snow).Along (NoPing pc cfg) (some (start cfg now noise)) is) :
    ∀ s, t = some s → Idle s := by
  refine Mealy.run_induction_along (P := fun _ _ t => ∀ s, t = some s → Idle s) ?_ ?_ h hn
  · rintro _ ⟨⟩
    exact WfqScheduler.isEmpty_new
  · rintro is tr t i t' o - hi hG hs s' rfl
    obtain ⟨s, r, rfl, hst, hr, rfl⟩ := machine_step.mp hs
    exact step_idle hst hr.symm hG (hi s rfl)

/-- A Ping leaves its Pong in the scheduler of a session that goes back to wait. -/
theorem step_ping (now : ℕ) {data : Bytes} {noise : NoiseSession snow} {acc : FrameAccumulator}
    {f : Frame}
    (hp : s.phase = .select)
    (hrec : receive pc s.noise s.accumulator data cfg.maxBytes = .ok (noise, acc, some f))
    (hf : f.kind = .ping) : ∃ s' o,
    s.step pc cfg now (.next (some (.ok (.binary data)))) = some (some s', o) ∧
      s'.phase = .select ∧ s'.scheduler.isEmpty = false := by
  refine ⟨_, _, by simp only [step, hp]; rfl, ?_⟩
  simp [onPacket, hrec, handle, hf, hp, WfqScheduler.not_isEmpty_enqueue]

/-- A session always waits with all it has queued written exactly if it decodes no Ping. -/
theorem run_drained_iff {noise : NoiseSession snow} {is : List (ℕ × SessionInput)}
    {t : Option (Session snow)} {tr : List SessionEffect}
    (h : (machine pc cfg snow).run (some (start cfg now noise)) is = some (t, tr)) :
    (∀ pre post s tr', is = pre ++ post →
        (machine pc cfg snow).run (some (start cfg now noise)) pre = some (some s, tr') →
        s.phase = .select → Drained s tr') ↔
      (machine pc cfg snow).Along (NoPing pc cfg) (some (start cfg now noise)) is := by
  constructor
  · rintro hd pre i post rfl m tr' hm s data noise' acc f rfl hi hrec hf
    obtain ⟨s', o, tr'', hs, -, -⟩ := Mealy.run_at h hm
    obtain ⟨_, r, ⟨⟩, hst, rfl, rfl⟩ := machine_step.mp hs
    rw [hi] at hst
    have hp : s.phase = .select := by
      cases hp : s.phase <;> simp [step, hp] at hst ⊢
    obtain ⟨s', o, hst', hp', hne⟩ := step_ping i.1 hp hrec hf
    have hs' : (machine pc cfg snow).step (some s) i = some (some s', .resumed i.2 :: o) :=
      machine_step.mpr ⟨s, _, rfl, by rw [hi]; exact hst', rfl, rfl⟩
    have hr' := Mealy.run_concat.mpr ⟨_, _, _, hm, hs', rfl⟩
    obtain ⟨he, -⟩ := hd (pre ++ [i]) post s' _ (by simp) hr' hp'
    rw [hne] at he
    cases he
  · rintro hn pre post s tr' rfl hr hp
    have hi := run_idle hr hn.left s rfl
    have hb := run_balanced hr s rfl
    simp only [Idle, hp] at hi
    refine ⟨hi, ?_⟩
    have h0 := WfqScheduler.isEmpty_iff_items.mp hi
    rcases hb with hc | hb
    · rw [hp] at hc
      cases hc
    · rw [hb, h0]
      simp [inFlight, hp]

/-- The first packet of a peer that sends a Ping. -/
def pingPacket : Bytes := toLE32 3 ++ [0, 2, 0] ++ Ideal.tag 0

theorem run_drained_iff_ping :
    (∀ pre post s tr', [(0, .next (some (.ok (.binary pingPacket))))] = pre ++ post →
        (machine .wire ⟨4096, 30, 10⟩ (Snow.ideal Ideal.genuine)).run
          (some (start ⟨4096, 30, 10⟩ 0 (Ideal.session _))) pre = some (some s, tr') →
        s.phase = .select → Drained s tr') ↔
      (machine .wire ⟨4096, 30, 10⟩ (Snow.ideal Ideal.genuine)).Along (NoPing .wire ⟨4096, 30, 10⟩)
        (some (start ⟨4096, 30, 10⟩ 0 (Ideal.session _)))
        [(0, .next (some (.ok (.binary pingPacket))))] :=
  run_drained_iff rfl

theorem run_ping_not_drained : ∃ s tr,
    (machine .wire ⟨4096, 30, 10⟩ (Snow.ideal Ideal.genuine)).run
        (some (start ⟨4096, 30, 10⟩ 0 (Ideal.session _)))
        [(0, .next (some (.ok (.binary pingPacket))))] = some (some s, tr) ∧
      s.phase = .select ∧ ¬ Drained s tr := by
  refine ⟨_, _, rfl, rfl, ?_⟩
  rintro ⟨he, -⟩
  revert he
  decide

end Session

end NotifiTransport

import NotifiTransport.Crypto.Ideal
import NotifiTransport.Frame.Postcard
import NotifiTransport.Lib.Watchdog
import NotifiTransport.Server.Session

/-! # The heartbeat of the server

A session is a watchdog on the packets of its client, as the client is on those of the server. It
has no clock of its own in the model: here it gets one.
-/

namespace NotifiTransport

namespace Session

variable {snow : Snow} {pc : Postcard} {cfg : SessionConfig} {now : ℕ} {s s' : Session snow}
  {i : SessionInput} {r : Option (Session snow) × List SessionEffect} {times : List ℕ}

def watchdog (s : Session snow) : Watchdog := ⟨s.heartbeatDeadline, s.waitingForPong⟩

/-- The time, if the step reads a packet. -/
def sign (now : ℕ) : SessionInput → List ℕ
  | .next (some (.ok (.binary _))) => [now]
  | _ => []

/-- The timer goes with the signs of life so far. -/
def Guarded (cfg : SessionConfig) (times : List ℕ) (now : ℕ) (s : Session snow) : Prop :=
  match s.phase with
  | .pinging _ => Watchdog.Probing cfg.heartbeatInterval times now
  | .closing => True
  | _ => s.watchdog.Sound cfg.heartbeatInterval cfg.heartbeatTimeout times now

theorem guarded_of_sound (h : s.watchdog.Sound cfg.heartbeatInterval cfg.heartbeatTimeout times now)
    (hp : ∀ rest, s.phase ≠ .pinging rest) : Guarded cfg times now s := by
  unfold Guarded
  split
  · next rest hp' => exact absurd hp' (hp rest)
  · trivial
  · exact h

theorem Guarded.later {now' : ℕ} (h : Guarded cfg times now s) (hn : now ≤ now') :
    Guarded cfg times now' s := by
  unfold Guarded at h ⊢
  cases hp : s.phase <;> simp only [hp] at h ⊢
  case pinging => exact h.later hn
  all_goals exact Watchdog.Sound.later h hn

/-- The same timer in another phase. -/
theorem Guarded.same
    (h : s.watchdog.Sound cfg.heartbeatInterval cfg.heartbeatTimeout times now)
    (hw : s'.watchdog = s.watchdog) (hp : ∀ rest, s'.phase ≠ .pinging rest) :
    Guarded cfg times now s' :=
  guarded_of_sound (hw ▸ h) hp

theorem guarded_pump (h : s.watchdog.Sound cfg.heartbeatInterval cfg.heartbeatTimeout times now) :
    Guarded cfg times now (s.pump pc).1 := by
  rcases s.pump_cases pc with
    ⟨scheduler, -, hs⟩ | ⟨s', hs⟩ | ⟨f, scheduler, _, noise, chunks, -, -, hs⟩ <;> rw [hs]
  · exact .same h rfl (by rintro _ ⟨⟩)
  · trivial
  · cases chunks <;> exact .same h rfl (by rintro _ ⟨⟩)

theorem guarded_pingSent (h : Watchdog.Probing cfg.heartbeatInterval times now) :
    Guarded cfg times now (s.pingSent cfg now) :=
  guarded_of_sound (h.sound cfg.heartbeatTimeout) (by rintro _ ⟨⟩)

theorem guarded_pingChunks (h : Watchdog.Probing cfg.heartbeatInterval times now)
    (cs : List Bytes) : Guarded cfg times now (s.pingChunks cfg now cs).1 := by
  cases cs with
  | nil => exact guarded_pingSent h
  | cons c cs => exact h

theorem guarded_onHeartbeat
    (h : s.watchdog.Sound cfg.heartbeatInterval cfg.heartbeatTimeout times now)
    (hd : s.heartbeatDeadline ≤ now) : Guarded cfg times now (s.onHeartbeat pc cfg now).1 := by
  cases hw : s.waitingForPong with
  | true =>
    rw [onHeartbeat, if_pos hw]
    trivial
  | false =>
    have hprobe := h.fire hw hd
    rcases s.onHeartbeat_cases pc cfg now with ho | ho | ⟨_, noise, _, -, ho | ⟨chunks, ho⟩⟩ <;>
      rw [ho]
    · trivial
    · exact guarded_pingSent hprobe
    · exact guarded_pingSent hprobe
    · exact guarded_pingChunks hprobe chunks

theorem guarded_onPacket (hp : s.phase = .select)
    (h : s.watchdog.Sound cfg.heartbeatInterval cfg.heartbeatTimeout times now) (data : Bytes) :
    Guarded cfg (times ++ [now]) now (s.onPacket pc cfg now data).1 := by
  have hsound := Watchdog.sound_rearm cfg.heartbeatInterval cfg.heartbeatTimeout h.le
  unfold onPacket
  split
  · trivial
  · next f _ =>
    rcases f with _ | f
    · exact guarded_of_sound hsound (by simp [hp])
    · unfold handle
      dsimp only
      split <;> exact guarded_of_sound hsound (by simp [hp])

/-- The session is closed if there was no answer to a Ping. -/
theorem close_mem_onHeartbeat (s : Session snow) (pc : Postcard) (cfg : SessionConfig) (now : ℕ) :
    .close ∈ (s.onHeartbeat pc cfg now).2 ↔ s.waitingForPong = true := by
  cases hw : s.waitingForPong with
  | true => simp [onHeartbeat, hw, finish]
  | false =>
    rw [onHeartbeat, if_neg (by simp [hw])]
    split
    · simp
    · split
      · simp
      · next chunks _ => cases chunks <;> simp [pingChunks]

/-- A step that reads no packet, when the timer does not fire early. -/
theorem step_guarded_other (hs : Guarded cfg times now s) (h : s.step pc cfg now i = some r)
    (hi : ∀ data, i ≠ .next (some (.ok (.binary data))))
    (hd : i = .elapsed → s.heartbeatDeadline ≤ now) (hr : r.1 = some s') :
    Guarded cfg times now s' := by
  unfold step at h
  split at h <;> cases h <;> cases hr
  · exact absurd rfl (hi _)
  · trivial
  · next c hp =>
    simp only [Guarded, hp] at hs
    cases c with
    | send frame priority => exact .same hs rfl (by rintro _ ⟨⟩)
    | close => trivial
  · next hp =>
    simp only [Guarded, hp] at hs
    exact guarded_onHeartbeat hs (hd rfl)
  · next hp =>
    simp only [Guarded, hp] at hs
    exact .same hs rfl (by rintro _ ⟨⟩)
  · trivial
  · next hp =>
    simp only [Guarded, hp] at hs
    exact guarded_pump hs
  · next f rest hp =>
    simp only [Guarded, hp] at hs
    cases rest <;> exact .same hs rfl (by rintro _ ⟨⟩)
  · trivial
  · next rest hp =>
    simp only [Guarded, hp] at hs
    exact guarded_pingChunks hs rest
  · next hp =>
    simp only [Guarded, hp] at hs
    exact guarded_pingSent hs

theorem step_guarded (hs : Guarded cfg times now s) (h : s.step pc cfg now i = some r)
    (hd : i = .elapsed → s.heartbeatDeadline ≤ now) (hr : r.1 = some s') :
    Guarded cfg (times ++ sign now i) now s' := by
  by_cases hi : ∃ data, i = .next (some (.ok (.binary data)))
  · obtain ⟨data, rfl⟩ := hi
    have hp : s.phase = .select := by cases hp : s.phase <;> simp [step, hp] at h ⊢
    simp only [step, hp, Option.some.injEq] at h
    subst h
    cases hr
    simp only [Guarded, hp] at hs
    exact guarded_onPacket hp hs data
  · push Not at hi
    have hsign : sign now i = [] := by
      unfold sign
      split
      · exact absurd rfl (hi _)
      · rfl
    rw [hsign, List.append_nil]
    exact step_guarded_other hs h hi hd hr

/-- The session with a clock. Time does not go back, and the timer does not fire early. -/
def clocked (pc : Postcard) (cfg : SessionConfig) (snow : Snow) :
    Mealy (Option (Session snow) × ℕ) (ℕ × SessionInput) SessionEffect where
  step t x :=
    if t.2 ≤ x.1 ∧ (x.2 = .elapsed → t.1.all fun s => s.heartbeatDeadline ≤ x.1) then
      ((machine pc cfg snow).step t.1 x).map fun r => ((r.1, x.1), r.2)
    else none

/-- The times at which the session begins or reads a packet. -/
def signs (began : ℕ) (is : List (ℕ × SessionInput)) : List ℕ :=
  began :: is.flatMap fun x => sign x.1 x.2

theorem clocked_step {t t' : Option (Session snow) × ℕ} {x : ℕ × SessionInput}
    {o : List SessionEffect} : (clocked pc cfg snow).step t x = some (t', o) ↔
      t.2 ≤ x.1 ∧ (x.2 = .elapsed → t.1.all fun s => s.heartbeatDeadline ≤ x.1) ∧ t'.2 = x.1 ∧
        (machine pc cfg snow).step t.1 x = some (t'.1, o) := by
  obtain ⟨t', n⟩ := t'
  simp only [clocked, Option.ite_none_right_eq_some, Option.map_eq_some_iff, Prod.exists,
    Prod.mk.injEq]
  constructor
  · rintro ⟨⟨hle, hd⟩, _, _, hs, ⟨rfl, rfl⟩, rfl⟩
    exact ⟨hle, hd, rfl, hs⟩
  · rintro ⟨hle, hd, rfl, hs⟩
    exact ⟨⟨hle, hd⟩, t', o, hs, ⟨rfl, rfl⟩, rfl⟩

variable {noise : NoiseSession snow} {is : List (ℕ × SessionInput)} {tr : List SessionEffect}
  {t : Option (Session snow)} {clock : ℕ}

theorem run_guarded
    (h : (clocked pc cfg snow).run (some (start cfg now noise), now) is = some ((t, clock), tr)) :
    ∀ s, t = some s → Guarded cfg (signs now is) clock s := by
  refine Mealy.run_induction (P := fun is _ t => ∀ s, t.1 = some s →
    Guarded cfg (signs now is) t.2 s) ?_ ?_ h
  · rintro s ⟨⟩
    have hno : ∀ t ∈ ([] : List ℕ), t ≤ now := by simp
    exact guarded_of_sound (Watchdog.sound_rearm _ cfg.heartbeatTimeout hno) (by rintro _ ⟨⟩)
  · rintro is tr ⟨t, clock⟩ x ⟨t', clock'⟩ o - ih hs s' hs'
    obtain ⟨hle, hd, hclock, hst⟩ := clocked_step.mp hs
    obtain ⟨s, r, rfl, hr, hr', -⟩ := machine_step.mp hst
    dsimp only at hle hd hclock hr' hs' ⊢
    subst hclock
    have hg := step_guarded ((ih s rfl).later hle) hr (by simpa using hd) (hr' ▸ hs')
    rw [signs, List.flatMap_append, List.flatMap_singleton, ← List.cons_append]
    exact hg

/-- When the timer of the session fires, it ends exactly if a Ping is out. Then no packet has been
read for the interval and the timeout, and otherwise none for the interval. The timer is never set
further ahead than the longer of the two. -/
theorem ended_only_in_silence
    (h : (clocked pc cfg snow).run (some (start cfg now noise), now) is =
      some ((some s, clock), tr)) (hp : s.phase = .select) :
    s.heartbeatDeadline ≤ clock + max cfg.heartbeatInterval cfg.heartbeatTimeout ∧
      ∀ t o fired, (clocked pc cfg snow).step (some s, clock) (fired, .elapsed) = some (t, o) →
        (.close ∈ o ↔ s.waitingForPong = true) ∧
        (.close ∈ o → ∀ t ∈ signs now is,
          t + cfg.heartbeatInterval + cfg.heartbeatTimeout ≤ fired) ∧
        (.close ∉ o → ∀ t ∈ signs now is, t + cfg.heartbeatInterval ≤ fired) := by
  have hsound := run_guarded h s rfl
  simp only [Guarded, hp] at hsound
  refine ⟨hsound.due, ?_⟩
  intro t o fired hs
  obtain ⟨hle, hd, -, hst⟩ := clocked_step.mp hs
  obtain ⟨_, r, ⟨⟩, hr, -, rfl⟩ := machine_step.mp hst
  have hdue : s.heartbeatDeadline ≤ fired := by simpa using hd rfl
  have hlater := hsound.later hle
  have hclose : .close ∈ SessionEffect.resumed .elapsed :: r.2 ↔ s.waitingForPong = true := by
    simp only [step, hp, Option.some.injEq] at hr
    subst hr
    simpa using s.close_mem_onHeartbeat pc cfg fired
  refine ⟨hclose, ?_, ?_⟩
  · intro hc
    exact hlater.expire (hclose.mp hc) hdue
  · intro hc
    exact hlater.fire (Bool.not_eq_true _ ▸ mt hclose.mpr hc) hdue

/-- A session whose client says nothing after one packet. -/
def silentClient : List (ℕ × SessionInput) :=
  [(3, .next (some (.ok (.binary (toLE32 4 ++ [2, 0, 1, 7] ++ Ideal.tag 0))))),
    (4, .inboxed true), (33, .elapsed), (34, .sent (.ok ()))]

theorem ended_only_in_silence_silentClient : ∃ s tr t o,
    (clocked .wire ⟨4096, 30, 10⟩ (Snow.ideal Ideal.genuine)).run
        (some (start ⟨4096, 30, 10⟩ 0 (Ideal.session _)), 0) silentClient =
      some ((some s, 34), tr) ∧
    (clocked .wire ⟨4096, 30, 10⟩ _).step (some s, 34) (44, .elapsed) = some (t, o) ∧
    .close ∈ o ∧ signs 0 silentClient = [0, 3] ∧ ∀ t ∈ signs 0 silentClient, t + 30 + 10 ≤ 44 := by
  have hrun : ((clocked .wire ⟨4096, 30, 10⟩ (Snow.ideal Ideal.genuine)).run
      (some (start ⟨4096, 30, 10⟩ 0 (Ideal.session _)), 0) silentClient).any (fun x =>
        x.1.2 = 34 ∧ x.1.1.any (fun s => s.phase = .select) ∧
        ((clocked .wire ⟨4096, 30, 10⟩ _).step x.1 (44, .elapsed)).any
          (fun y => .close ∈ y.2)) = true := by
    decide +kernel
  obtain ⟨⟨⟨t, clock⟩, tr⟩, h, hx⟩ := (Option.any_eq_true _ _).mp hrun
  obtain ⟨rfl, hp, hstep⟩ := of_decide_eq_true hx
  obtain ⟨s, rfl, hselect⟩ := (Option.any_eq_true _ _).mp hp
  obtain ⟨⟨t', o⟩, hs, hc⟩ := (Option.any_eq_true _ _).mp hstep
  obtain ⟨-, hall⟩ := ended_only_in_silence h (of_decide_eq_true hselect)
  have hclose : .close ∈ o := of_decide_eq_true hc
  exact ⟨s, tr, t', o, h, hs, hclose, rfl, (hall t' o 44 hs).2.1 hclose⟩

end Session

end NotifiTransport

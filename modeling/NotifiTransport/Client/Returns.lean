import NotifiTransport.Client.Outstanding
import NotifiTransport.Crypto.Ideal
import NotifiTransport.Frame.Postcard

/-! # The state of a client that has stopped

Two places publish `Disconnected`: where no endpoint is found, and where a connection has ended.
A loop that returns publishes nothing, so the last state is `Disconnected` only if the loop has
not begun another attempt since. It does not empty `pending` either.
-/

namespace NotifiTransport

def Effect.published? : Effect → Option ConnectionState
  | .publish s => some s
  | _ => none

/-- What the state channel holds after these effects, if it held `s` before. -/
def published (s : ConnectionState) (o : List Effect) : ConnectionState :=
  (o.filterMap Effect.published?).getLast?.getD s

theorem published_append (s : ConnectionState) (a b : List Effect) :
    published s (a ++ b) = published (published s a) b := by
  unfold published
  rw [List.filterMap_append]
  rcases List.eq_nil_or_concat (b.filterMap Effect.published?) with hb | ⟨x, y, hb⟩ <;> rw [hb] <;>
    simp

theorem published_cases (s : ConnectionState) (o : List Effect) :
    published s o = s ∨ .publish (published s o) ∈ o := by
  unfold published
  cases h : (o.filterMap Effect.published?).getLast? with
  | none => exact Or.inl rfl
  | some t =>
    apply Or.inr
    obtain ⟨e, he, ht⟩ := List.mem_filterMap.mp (List.mem_of_getLast? h)
    cases e <;> cases ht
    exact he

theorem published_of_not_mem {s : ConnectionState} {o : List Effect}
    (h : ∀ t, .publish t ∉ o) : published s o = s :=
  (published_cases s o).resolve_right (h _)

/-- `Disconnected` is published where these phases begin. -/
def Phase.cleared {snow : Snow} : Phase snow → Bool
  | .parked | .checkAuto => true
  | _ => false

/-- There is no attempt, connection or rejection. -/
def Phase.detached {snow : Snow} : Phase snow → Bool
  | .top | .readUrl | .parked | .backoff _ _ | .checkAuto | .manual | .stopped | .panicked => true
  | _ => false

theorem Phase.not_cleared {snow : Snow} {p : Phase snow} (h : p.attempted) : ¬ p.cleared := by
  cases p <;> cases h <;> exact Bool.false_ne_true

theorem Phase.detached_of_cleared {snow : Snow} {p : Phase snow} (h : p.cleared) : p.detached := by
  cases p <;> first | rfl | cases h

theorem Phase.not_detached {snow : Snow} {p : Phase snow} (h : p.attempting) : ¬ p.detached := by
  cases p <;> cases h <;> simp [detached]

namespace Loop

variable {snow : Snow} {pc : Postcard} {cfg : WsClientConfig} {now : ℕ} {l : Loop snow}
  {i : Input} {r : Loop snow × List Effect} {s : ConnectionState}

/-- The step dials, or it announces that the client reconnects. -/
def Departs (cfg : WsClientConfig) (l : Loop snow) (i : Input) : Prop :=
  match l.phase, i with
  | .backoff _ _, .elapsed => True
  | .readUrl, .url (some _) => ∃ delay, cfg.backoff.nextDelay l.reconnectAttempt = some delay ∧
      (delay.nanos = 0 ∨ l.everConnected)
  | _, _ => False

theorem step_detached (hp : l.phase.detached) (hd : ¬ l.Departs cfg i)
    (h : l.step pc cfg now i = some r) :
    r.1.phase.detached ∧ published .disconnected r.2 = .disconnected := by
  rcases step_cases h with ⟨ha, -⟩ | hr | ⟨url, m, x, hl, -⟩
  · exact absurd hp (Phase.not_detached ha)
  · cases hr with
    | flag b => cases b <;> exact ⟨rfl, rfl⟩
    | endpoint u hl =>
      rcases l.onUrl_cases cfg now u with
        ⟨-, hu⟩ | ⟨url, rfl, ⟨-, hu⟩ | ⟨d, hd', ⟨hpos, hu⟩ | ⟨hz, hu⟩⟩⟩ <;> rw [hu]
      · exact ⟨rfl, rfl⟩
      · exact ⟨rfl, rfl⟩
      · refine ⟨rfl, ?_⟩
        split
        · next he =>
          simp only [Departs, hl] at hd
          exact absurd ⟨d, hd', Or.inr he⟩ hd
        · rfl
      · simp only [Departs, hl] at hd
        exact absurd ⟨d, hd', Or.inl hz⟩ hd
    | idle => exact ⟨hp, rfl⟩
    | woken =>
      rw [woken_phase]
      exact ⟨rfl, rfl⟩
    | released =>
      refine ⟨?_, rfl⟩
      rcases l.released_phase with hn | ⟨hn, -⟩ <;> rw [hn] <;> rfl
    | elapsed hl =>
      simp only [Departs, hl] at hd
      exact absurd trivial hd
    | disconnected => exact ⟨rfl, rfl⟩
    | auto b => cases b <;> exact ⟨rfl, rfl⟩
  · rw [hl] at hp
    cases hp

theorem not_departs_of_attempting (ha : l.phase.attempting) : ¬ l.Departs cfg i := by
  cases hl : l.phase <;> rw [hl] at ha <;> cases ha <;> simp [Departs, hl]

theorem not_departs_of_input (hi : i ≠ .elapsed) (hu : ∀ u, i ≠ .url u) : ¬ l.Departs cfg i := by
  unfold Departs
  split
  · exact absurd rfl hi
  · exact absurd rfl (hu _)
  · exact id

theorem Attempted.publish (ha : Attempted cfg now l r) : .publish .disconnected ∉ r.2 := by
  intro hm
  rcases ha.effects hm with he | he | ⟨s, hs, he⟩
  · cases he
  · cases he
  · cases he
    rcases hs with hs | hs <;> cases hs

/-- What `Disconnected` says about the step before. -/
theorem step_published (h : l.step pc cfg now i = some r)
    (hs : published s r.2 = .disconnected) :
    r.1.phase.cleared ∨ s = .disconnected ∧ ¬ l.Departs cfg i := by
  rcases step_cases h with ⟨hp, ha⟩ | hr | ⟨url, m, x, hl, hx, ho, -⟩
  · refine Or.inr ⟨?_, not_departs_of_attempting hp⟩
    rcases published_cases s r.2 with he | hm
    · rw [← he, hs]
    · rw [hs] at hm
      exact absurd hm ha.publish
  · cases hr with
    | flag | idle | woken | released | auto =>
      exact Or.inr ⟨hs, not_departs_of_input (by simp) (by simp)⟩
    | endpoint u hl =>
      rcases l.onUrl_cases cfg now u with
        ⟨-, hu⟩ | ⟨url, rfl, ⟨hd, hu⟩ | ⟨d, hd, ⟨hpos, hu⟩ | ⟨hz, hu⟩⟩⟩ <;> rw [hu] at hs ⊢
      · exact Or.inl rfl
      · refine Or.inr ⟨hs, ?_⟩
        simp [Departs, hl, hd]
      · split at hs
        · cases hs
        · next he =>
          refine Or.inr ⟨hs, ?_⟩
          simp only [Departs, hl]
          rintro ⟨d', hd', hz | he'⟩
          · cases hd.symm.trans hd'
            omega
          · exact he he'
      · cases hs
    | elapsed => cases hs
    | disconnected => exact Or.inl rfl
  · have hn : ∀ t, .publish t ∉ r.2 := by
      intro t hm
      rw [ho] at hm
      exact absurd (MsgLoop.step_isTraffic hx _ hm) (by simp [Effect.isTraffic])
    rw [published_of_not_mem hn] at hs
    refine Or.inr ⟨hs, ?_⟩
    simp [Departs, hl]

theorem step_cleared (h : l.step pc cfg now i = some r) (hl : l.phase.cleared → s = .disconnected)
    (hp : r.1.phase.cleared) : published s r.2 = .disconnected := by
  rcases step_cases h with ⟨-, ha⟩ | hr | ⟨url, m, x, -, -, -, ⟨-, hr⟩ | ⟨m', -, hr⟩⟩
  · exact absurd hp (Phase.not_cleared ha.phase)
  · cases hr with
    | flag b => cases b <;> cases hp
    | endpoint u =>
      rcases l.onUrl_cases cfg now u with
        ⟨-, hu⟩ | ⟨url, rfl, ⟨hd, hu⟩ | ⟨d, hd, ⟨hpos, hu⟩ | ⟨hz, hu⟩⟩⟩ <;> rw [hu] at hp ⊢ <;>
          cases hp
      rfl
    | idle => exact hl hp
    | woken =>
      rw [woken_phase] at hp
      cases hp
    | released =>
      rcases l.released_phase with hn | ⟨hn, -⟩ <;> rw [hn] at hp <;> cases hp
    | elapsed => cases hp
    | disconnected => rfl
    | auto b => cases b <;> cases hp
  · rw [hr] at hp
    cases hp
  · rw [hr] at hp
    cases hp

/-- A loop that returns does nothing else. -/
theorem step_stopped (h : l.step pc cfg now i = some r) (hp : r.1.phase = .stopped) : r.2 = [] := by
  rcases step_cases h with ⟨-, ha⟩ | hr | ⟨url, m, x, -, -, -, ⟨-, hr⟩ | ⟨m', -, hr⟩⟩
  · have hn := ha.phase
    rw [hp] at hn
    cases hn
  · cases hr with
    | flag | idle | woken | released | auto => rfl
    | endpoint u =>
      rcases l.onUrl_cases cfg now u with
        ⟨-, hu⟩ | ⟨url, rfl, ⟨hd, hu⟩ | ⟨d, hd, ⟨hpos, hu⟩ | ⟨hz, hu⟩⟩⟩ <;> rw [hu] at hp <;>
          cases hp
    | elapsed => cases hp
    | disconnected => cases hp
  · rw [hr] at hp
    cases hp
  · rw [hr] at hp
    cases hp

end Loop

namespace WsClient

variable {snow : Snow} {pc : Postcard} {cfg : WsClientConfig} {parses : Text → Bool}
  {w w' m : WsClient snow} {e : Event} {es : List Event} {tr o : List Output}

/-- The state that is published last; the channel starts with `Disconnected`. -/
def lastState (tr : List Output) : ConnectionState :=
  published .disconnected (tr.filterMap Output.loop?)

/-- The step does not begin another attempt. -/
def Stays (cfg : WsClientConfig) (w : WsClient snow) : Event → Prop
  | .loop i => ¬ w.loop.Departs cfg i
  | _ => True

/-- The loop has not begun another attempt since the client was created, or since it found no
endpoint or ended a connection. -/
def StaysSince (pc : Postcard) (cfg : WsClientConfig) (parses : Text → Bool) (snow : Snow)
    (es : List Event) : Prop :=
  ∃ pre post m u, es = pre ++ post ∧ (machine pc cfg parses snow).run new pre = some (m, u) ∧
    (pre = [] ∨ m.loop.phase.cleared) ∧ (machine pc cfg parses snow).Along (Stays cfg) m post

theorem lastState_append : lastState (tr ++ o) =
    published (lastState tr) (o.filterMap Output.loop?) := by
  rw [lastState, List.filterMap_append, published_append]
  rfl

theorem run_cleared (h : (machine pc cfg parses snow).run new es = some (w, tr))
    (hp : w.loop.phase.cleared) : lastState tr = .disconnected := by
  refine Mealy.run_induction
    (P := fun _ tr w => w.loop.phase.cleared → lastState tr = .disconnected) ?_ ?_ h hp
  · rintro ⟨⟩
  · intro is tr m e m' o _ hm hs hp
    rw [lastState_append]
    rcases step_loop_cases hs with ⟨hl, hout, -⟩ | ⟨i, r, -, -, hr, hl, hout⟩ <;> rw [hout]
    · exact hm (hl ▸ hp)
    · exact Loop.step_cleared hr hm (hl ▸ hp)

/-- A detached loop stays so and publishes nothing but `Disconnected`. -/
theorem run_detached (hp : m.loop.phase.detached)
    (h : (machine pc cfg parses snow).run m es = some (w, tr))
    (hG : (machine pc cfg parses snow).Along (Stays cfg) m es) : lastState tr = .disconnected := by
  refine (Mealy.run_induction_along
    (P := fun _ tr w => w.loop.phase.detached ∧ lastState tr = .disconnected) ⟨hp, rfl⟩ ?_ h hG).2
  rintro is tr n e n' o _ ⟨hp, hlast⟩ hst hs
  rw [lastState_append, hlast]
  rcases step_loop_cases hs with ⟨hl, hout, -⟩ | ⟨i, r, rfl, -, hr, hl, hout⟩ <;> rw [hl, hout]
  · exact ⟨hp, rfl⟩
  · exact Loop.step_detached hp hst hr

theorem StaysSince.concat (h : StaysSince pc cfg parses snow es)
    (hr : (machine pc cfg parses snow).run new es = some (w, tr)) (he : Stays cfg w e) :
    StaysSince pc cfg parses snow (es ++ [e]) := by
  obtain ⟨pre, post, m, u, rfl, hpre, hm, hG⟩ := h
  obtain ⟨b, hb, rfl⟩ := Mealy.run_rest hr hpre
  exact ⟨pre, post ++ [e], m, u, List.append_assoc _ _ _, hpre, hm, hG.concat hb he⟩

theorem run_lastState_iff (h : (machine pc cfg parses snow).run new es = some (w, tr)) :
    lastState tr = .disconnected ↔ StaysSince pc cfg parses snow es := by
  constructor
  · refine Mealy.run_induction
      (P := fun es tr _ => lastState tr = .disconnected → StaysSince pc cfg parses snow es) ?_ ?_ h
    · intro _
      exact ⟨[], [], new, [], rfl, rfl, Or.inl rfl, Mealy.along_nil⟩
    · intro is tr m e m' o hr ih hs hlast
      rw [lastState_append] at hlast
      rcases step_loop_cases hs with ⟨-, hout, hne⟩ | ⟨i, r, rfl, -, hr', hl, hout⟩
      · rw [hout] at hlast
        refine (ih hlast).concat hr ?_
        cases e with
        | loop i => exact absurd rfl (hne i)
        | _ => trivial
      · rw [hout] at hlast
        rcases Loop.step_published hr' hlast with hcl | ⟨hlast', hd⟩
        · refine ⟨is ++ [.loop i], [], m', tr ++ o, (List.append_nil _).symm, ?_, ?_,
            Mealy.along_nil⟩
          · exact Mealy.run_concat.mpr ⟨m, tr, o, hr, hs, rfl⟩
          · rw [hl]
            exact Or.inr hcl
        · exact (ih hlast').concat hr hd
  · rintro ⟨pre, post, m, u, rfl, hpre, hm, hG⟩
    obtain ⟨b, hb, rfl⟩ := Mealy.run_rest h hpre
    have hstart : m.loop.phase.detached ∧ lastState u = .disconnected := by
      rcases hm with rfl | hcl
      · obtain ⟨rfl, rfl⟩ := Mealy.run_nil.mp hpre
        exact ⟨rfl, rfl⟩
      · exact ⟨Phase.detached_of_cleared hcl, run_cleared hpre hcl⟩
    rw [lastState_append, hstart.2]
    exact run_detached hstart.1 hb hG

/-- When the loop returns, the last state is `Disconnected` and nothing is pending, exactly if no
attempt was begun since `Disconnected` was last published, and every id that a call registered has
been taken out again. -/
theorem run_returns_iff (h : (machine pc cfg parses snow).run new es = some (w, tr))
    (hs : w.step pc cfg parses e = some (w', o)) (hw : w.loop.phase ≠ .stopped)
    (hp : w'.loop.phase = .stopped) : lastState (tr ++ o) = .disconnected ∧ w'.pending = ∅ ↔
      StaysSince pc cfg parses snow es ∧ ∀ id, ¬ Outstanding pc cfg parses snow id es := by
  rcases step_loop_cases hs with ⟨hl, -⟩ | ⟨i, r, rfl, -, hr, hl, hout⟩
  · rw [hl] at hp
    exact absurd hp hw
  have ho : r.2 = [] := Loop.step_stopped hr (hl ▸ hp)
  have hlast : lastState (tr ++ o) = lastState tr := by
    rw [lastState_append, hout, ho]
    rfl
  have hpend : w'.pending = w.pending := by
    obtain ⟨-, r', hr', rfl, -⟩ := stepLoop_eq_some.mp hs
    obtain ⟨q, hq, -⟩ := w.resume_eq i r'.1
    rw [hr] at hr'
    cases hr'
    rw [ho, hq]
    rfl
  rw [hlast, hpend, run_lastState_iff h, run_pending_empty_iff h]

/-- A client without an endpoint that is shut down. A request was made while it waited for one; the
wait has dropped its command, and the call has given up after its timeout. -/
def stopping : List Event :=
  [.loop (.cancelFlag false), .loop (.url none), .request [5] .normal, .register 0, .permit 0,
    .enqueue 0, .loop (.cmd (.send ⟨2, .message, [5]⟩ .normal)), .tick 30000000000, .expire 0,
    .remove 0, .shutdown]

theorem run_returns_iff_request : ∃ w w' tr o,
    (machine .wire .sample (fun _ => true) (Snow.ideal Ideal.genuine)).run new stopping =
        some (w, tr) ∧
      w.step .wire .sample (fun _ => true) (.loop .cancelled) = some (w', o) ∧
      w'.loop.phase = .stopped ∧ lastState (tr ++ o) = .disconnected ∧ w'.pending = ∅ := by
  let M := machine .wire .sample (fun _ => true) (Snow.ideal Ideal.genuine)
  let x := M.run new stopping
  have h : x = some (x.get rfl) := (Option.some_get rfl).symm
  let y := (x.get rfl).1.step .wire .sample (fun _ => true) (.loop .cancelled)
  have hs : y = some (y.get rfl) := (Option.some_get rfl).symm
  refine ⟨_, _, _, _, h, hs, rfl, (run_returns_iff h hs ?_ rfl).mpr ⟨?_, ?_⟩⟩
  · rintro ⟨⟩
  · refine ⟨stopping.take 2, stopping.drop 2, _, _, rfl, rfl, Or.inr rfl, ?_⟩
    rintro pre e post he m u -
    cases e with
    | loop i =>
      have hi : .loop i ∈ stopping.drop 2 := by simp [he]
      have hcmd : i = .cmd (.send ⟨2, .message, [5]⟩ .normal) := by simpa [stopping] using hi
      exact Loop.not_departs_of_input (by simp [hcmd]) (by simp [hcmd])
    | _ => trivial
  · exact (run_pending_empty_iff h).mp rfl

/-- A client is shut down after a failed attempt, and stays in `Error`; a client without an endpoint
is shut down while a request is pending, which nobody can answer. -/
theorem run_returns_unclear :
    (∃ w tr, (machine .wire .sample (fun _ => true) (Snow.ideal Ideal.genuine)).run new
        [.setEndpoint "ws://a".toList, .loop (.cancelFlag false),
          .loop (.url (some "ws://a".toList)), .loop (.connected (.error "refused".toList)),
          .shutdown, .loop (.cancelFlag true)] = some (w, tr) ∧
      w.loop.phase = .stopped ∧ lastState tr = .error "refused".toList) ∧
    ∃ w tr, (machine .wire .sample (fun _ => true) (Snow.ideal Ideal.genuine)).run new
        [.loop (.cancelFlag false), .loop (.url none), .request [5] .normal, .register 0,
          .permit 0, .enqueue 0, .shutdown, .loop .cancelled] = some (w, tr) ∧
      w.loop.phase = .stopped ∧ w.pending.lookup 2 = some 0 := by
  constructor
  · exact ⟨_, _, rfl, rfl, by decide⟩
  · exact ⟨_, _, rfl, rfl, rfl⟩

end WsClient

end NotifiTransport

import NotifiTransport.Client.Drained

/-! # Commands that disconnect

`EndpointChanged` and `Reconnect` close the socket wherever the message loop takes them. Taken at
the `select!` they end the loop. Taken while the loop drains the channel after a frame, they end
the inner loop only: the outer loop waits in its `select!` again, on a socket that it has closed.
-/

namespace NotifiTransport

namespace MsgLoop

variable {snow : Snow} {pc : Postcard} {cfg : WsClientConfig} {now : ℕ} {m m' : MsgLoop snow}
  {s s' : Option (MsgLoop snow) × List ClientCmd} {c : ClientCmd} {o tr : List Effect}
  {x : ClientCmd ⊕ ℕ × Input} {es : List (ClientCmd ⊕ ℕ × Input)}

/-- The loop takes a command at its `select!`. -/
def TakesAtSelect (s : Option (MsgLoop snow) × List ClientCmd) (x : ClientCmd ⊕ ℕ × Input) : Prop :=
  ∃ m t c, s.1 = some m ∧ m.phase = .select ∧ x = .inr (t, .cmd c)

/-- From here the loop dispatches no frame and takes no command at its `select!`, whatever arrives,
and it can always return. -/
def Disconnects (pc : Postcard) (cfg : WsClientConfig)
    (s : Option (MsgLoop snow) × List ClientCmd) : Prop :=
  ∀ es s' tr, ((machine pc cfg snow).behind reads).run s es = some (s', tr) →
    (∀ f, .dispatch f ∉ tr) ∧
    ((machine pc cfg snow).behind reads).Along (fun s x => ¬ TakesAtSelect s x) s es ∧
    ∃ es' q tr', ((machine pc cfg snow).behind reads).run s' es' = some ((none, q), tr')

/-- The loop has returned, or waits for the close before it returns. -/
def Returning (s : Option (MsgLoop snow) × List ClientCmd) : Prop :=
  ∀ m, s.1 = some m → m.phase = .closing

theorem step_behind_inr {t : ℕ} {i : Input} {q : List ClientCmd} :
    ((machine pc cfg snow).behind reads).step (some m, q) (.inr (t, i)) = some (s', o) ↔
      ∃ q' r, reads (t, i) q = some q' ∧ m.step pc cfg t i = some r ∧ s' = (r.1, q') ∧
        o = .resumed i :: r.2 := by
  simp only [Mealy.behind, Option.bind_eq_some_iff, Option.map_eq_some_iff, Prod.mk.injEq]
  constructor
  · rintro ⟨q', hq, ⟨u, o'⟩, hs, rfl, rfl⟩
    obtain ⟨_, r, ⟨⟩, hr, rfl, rfl⟩ := machine_step.mp hs
    exact ⟨q', r, hq, hr, rfl, rfl⟩
  · rintro ⟨q', r, hq, hr, rfl, rfl⟩
    exact ⟨q', hq, _, machine_step.mpr ⟨m, r, rfl, hr, rfl, rfl⟩, rfl, rfl⟩

theorem step_returning (hs : Returning s)
    (h : ((machine pc cfg snow).behind reads).step s x = some (s', o)) :
    Returning s' ∧ ∀ f, .dispatch f ∉ o := by
  obtain ⟨u, q⟩ := s
  rcases x with c | ⟨t, i⟩
  · cases h
    exact ⟨hs, by simp⟩
  · rcases u with _ | m
    · obtain ⟨_, -, h⟩ := Option.bind_eq_some_iff.mp h
      cases h
    · obtain ⟨q', r, -, hr, rfl, rfl⟩ := step_behind_inr.mp h
      have hp : m.phase = .closing := hs m rfl
      simp only [step, hp] at hr
      split at hr <;> cases hr
      exact ⟨by rintro _ ⟨⟩, by simp⟩

theorem run_returning (hs : Returning s)
    (h : ((machine pc cfg snow).behind reads).run s es = some (s', tr)) :
    Returning s' ∧ ∀ f, .dispatch f ∉ tr := by
  refine Mealy.run_induction (P := fun _ tr s' => Returning s' ∧ ∀ f, .dispatch f ∉ tr)
    ⟨hs, by simp⟩ ?_ h
  rintro es tr s x s' o - ⟨hs, hf⟩ hst
  obtain ⟨hs', hf'⟩ := step_returning hs hst
  refine ⟨hs', ?_⟩
  intro f hm
  rcases List.mem_append.mp hm with hm | hm
  · exact hf f hm
  · exact hf' f hm

theorem disconnects_of_returning (hs : Returning s) : Disconnects pc cfg s := by
  intro es s' tr h
  obtain ⟨hs', hf⟩ := run_returning hs h
  refine ⟨hf, ?_, ?_⟩
  · rintro pre x post - m u hm ⟨n, t, c, hn, hp, rfl⟩
    have hc := (run_returning hs hm).1 n hn
    rw [hp] at hc
    cases hc
  · obtain ⟨u, q⟩ := s'
    rcases u with _ | m
    · exact ⟨[], q, [], rfl⟩
    · have hp : m.phase = .closing := hs' m rfl
      have hst : ((machine pc cfg snow).behind reads).step (some m, q) (.inr (0, .closed)) =
          some ((none, q), [.resumed .closed]) :=
        step_behind_inr.mpr ⟨q, (none, []), rfl, by simp [step, hp], rfl, rfl⟩
      exact ⟨[.inr (0, .closed)], q, _, Mealy.run_cons.mpr ⟨_, _, _, hst, rfl, rfl⟩⟩

/-- After a disconnect in the drain the loop empties the channel and comes back to its `select!`. -/
theorem run_toSelect (pc : Postcard) (cfg : WsClientConfig) {q : List ClientCmd}
    (hp : m.phase = .draining true) :
    ∃ es n tr, ((machine pc cfg snow).behind reads).run (some m, q) es = some ((some n, []), tr) ∧
      n.phase = .select := by
  induction q generalizing m with
  | nil =>
    have hst : ((machine pc cfg snow).behind reads).step (some m, []) (.inr (0, .noCmd)) =
        some ((some { m with phase := .select }, []), [.resumed .noCmd]) :=
      step_behind_inr.mpr ⟨[], (some { m with phase := .select }, []), rfl, by simp [step, hp],
        rfl, rfl⟩
    exact ⟨[.inr (0, .noCmd)], { m with phase := .select }, _,
      Mealy.run_cons.mpr ⟨_, _, _, hst, rfl, rfl⟩, rfl⟩
  | cons c q ih =>
    have hst : ((machine pc cfg snow).behind reads).step (some m, c :: q) (.inr (0, .cmd c)) =
        some (((m.onDrain true c).1, q), .resumed (.cmd c) :: (m.onDrain true c).2) :=
      step_behind_inr.mpr ⟨q, m.onDrain true c, by simp [reads], by simp [step, hp], rfl, rfl⟩
    cases c with
    | send frame priority =>
      obtain ⟨es, n, tr, hr, hn⟩ := ih (m := { m with
        scheduler := m.scheduler.enqueue frame priority, phase := .draining true }) rfl
      exact ⟨_, n, _, Mealy.run_cons.mpr ⟨_, _, _, hst, hr, rfl⟩, hn⟩
    | wakeUp =>
      obtain ⟨es, n, tr, hr, hn⟩ := ih (m := { m with phase := .draining true }) rfl
      exact ⟨_, n, _, Mealy.run_cons.mpr ⟨_, _, _, hst, hr, rfl⟩, hn⟩
    | endpointChanged | reconnect =>
      obtain ⟨es, n, tr, hr, hn⟩ := ih (m := { m with phase := .draining true, closed := true }) rfl
      have hcl : ((machine pc cfg snow).behind reads).step
          (some { m with phase := .drainClosing, closed := true }, q) (.inr (0, .closed)) =
            some ((some { m with phase := .draining true, closed := true }, q),
              [.resumed .closed]) :=
        step_behind_inr.mpr ⟨q, (some { m with phase := .draining true, closed := true }, []), rfl,
          rfl, rfl, rfl⟩
      exact ⟨_, n, _, Mealy.run_cons.mpr ⟨_, _, _, hst,
        Mealy.run_cons.mpr ⟨_, _, _, hcl, hr, rfl⟩, rfl⟩, hn⟩

/-- A loop that is back at its `select!` can take another command. -/
theorem not_disconnects_of_select (hp : m.phase = .select) :
    ¬ Disconnects pc cfg (some m, []) := by
  intro hd
  have hst : ((machine pc cfg snow).behind reads).step (some m, [.wakeUp])
      (.inr (0, .cmd .wakeUp)) = some ((some m, []), [.resumed (.cmd .wakeUp)]) :=
    step_behind_inr.mpr ⟨[], (some m, []), rfl, by simp [step, hp, onCmd], rfl, rfl⟩
  have hr : ((machine pc cfg snow).behind reads).run (some m, [])
      [.inl .wakeUp, .inr (0, .cmd .wakeUp)] = some ((some m, []), [.resumed (.cmd .wakeUp)]) :=
    Mealy.run_cons.mpr ⟨_, _, _, rfl, Mealy.run_cons.mpr ⟨_, _, _, hst, rfl, rfl⟩, rfl⟩
  obtain ⟨-, hal, -⟩ := hd _ _ _ hr
  exact hal [.inl .wakeUp] _ [] rfl (some m, [.wakeUp]) [] rfl ⟨m, 0, .wakeUp, rfl, hp, rfl⟩

theorem Disconnects.run (hd : Disconnects pc cfg s)
    (h : ((machine pc cfg snow).behind reads).run s es = some (s', tr)) :
    Disconnects pc cfg s' := by
  intro es' s'' tr' h'
  obtain ⟨hf, hal, hret⟩ := hd (es ++ es') s'' (tr ++ tr')
    (Mealy.run_append.mpr ⟨_, _, _, h, h', rfl⟩)
  refine ⟨fun f hm => hf f (List.mem_append_right _ hm), ?_, hret⟩
  rintro pre x post rfl m u hm
  exact hal (es ++ pre) x post (by simp) m (tr ++ u) (Mealy.run_append.mpr ⟨_, _, _, h, hm, rfl⟩)

/-- After `EndpointChanged` or `Reconnect` the loop returns, without another frame or command,
exactly if it took the command at its `select!`. -/
theorem control_disconnects_iff {r : Option (MsgLoop snow) × List Effect} {q : List ClientCmd}
    (hc : Loop.isControl c) (h : m.step pc cfg now (.cmd c) = some r) :
    Disconnects pc cfg (r.1, q) ↔ m.phase = .select := by
  constructor
  · intro hd
    cases hp : m.phase <;> simp only [step, hp] at h
    case select => rfl
    case draining disconnect =>
      have hm : r.1 = some { m with phase := .drainClosing, closed := true } := by
        cases c <;> cases hc <;> cases h <;> rfl
      rw [hm] at hd
      have hcl : ((machine pc cfg snow).behind reads).step
          (some { m with phase := .drainClosing, closed := true }, q) (.inr (0, .closed)) =
            some ((some { m with phase := .draining true, closed := true }, q),
              [.resumed .closed]) :=
        step_behind_inr.mpr ⟨q, (some { m with phase := .draining true, closed := true }, []), rfl,
          rfl, rfl, rfl⟩
      obtain ⟨es, n, tr, hr, hn⟩ := run_toSelect pc cfg (q := q)
        (m := { m with phase := .draining true, closed := true }) rfl
      exact absurd (hd.run (Mealy.run_cons.mpr ⟨_, _, _, hcl, hr, rfl⟩))
        (not_disconnects_of_select hn)
    all_goals cases h
  · intro hp
    apply disconnects_of_returning
    simp only [step, hp] at h
    cases h
    cases c <;> cases hc <;> rintro _ ⟨⟩ <;> rfl

theorem control_disconnects_iff_start : ∃ r,
    (start .sample 0 (Ideal.session Ideal.genuine)).step .wire .sample 0 (.cmd .reconnect) =
        some r ∧
      (Disconnects .wire .sample (r.1, []) ↔
        (start .sample 0 (Ideal.session Ideal.genuine)).phase = .select) := by
  have h : (start .sample 0 (Ideal.session Ideal.genuine)).step .wire .sample 0
      (.cmd .reconnect) = some (_, _) := rfl
  exact ⟨_, h, control_disconnects_iff rfl h⟩

/-- The first packet of a server that pushes an event. -/
def eventPacket (b : UInt8) : Bytes := toLE32 4 ++ [0, 1, 1, b] ++ Ideal.tag 0

/-- `Reconnect` behind an event: the loop takes it in the drain, closes the socket, and dispatches
an event that comes in afterwards. -/
theorem run_control_drained : ∃ m u r s v,
    ((machine .wire .sample (Snow.ideal Ideal.genuine)).behind reads).run
        (some (start .sample 0 (Ideal.session _)), [.send (oneEvent 1) .bulk, .reconnect])
        [.inr (0, .cmd (.send (oneEvent 1) .bulk)), .inr (0, .sent (.ok ()))] =
      some ((some m, [.reconnect]), u) ∧
    m.step .wire .sample 0 (.cmd .reconnect) = some r ∧
    ((machine .wire .sample (Snow.ideal Ideal.genuine)).behind reads).run (r.1, [])
        [.inr (0, .closed), .inr (0, .noCmd),
          .inr (0, .next (some (.ok (.binary (eventPacket 9)))))] = some (s, v) ∧
    .dispatch (oneEvent 9) ∈ v ∧ ¬ Disconnects .wire .sample (r.1, []) := by
  let M := (machine .wire .sample (Snow.ideal Ideal.genuine)).behind reads
  let x := M.run (some (start .sample 0 (Ideal.session _)), [.send (oneEvent 1) .bulk, .reconnect])
    [.inr (0, .cmd (.send (oneEvent 1) .bulk)), .inr (0, .sent (.ok ()))]
  have hx : x = some ((some ((x.get rfl).1.1.get rfl), [.reconnect]), (x.get rfl).2) := rfl
  let r := ((x.get rfl).1.1.get rfl).step .wire .sample 0 (.cmd .reconnect)
  have hr : r = some (r.get rfl) := (Option.some_get rfl).symm
  let y := M.run ((r.get rfl).1, []) [.inr (0, .closed), .inr (0, .noCmd),
    .inr (0, .next (some (.ok (.binary (eventPacket 9)))))]
  have hy : y = some (y.get rfl) := (Option.some_get rfl).symm
  have hd : .dispatch (oneEvent 9) ∈ (y.get rfl).2 := by decide +kernel
  refine ⟨_, _, _, _, _, hx, hr, hy, hd, ?_⟩
  intro hdis
  exact (hdis _ _ _ hy).1 _ hd

end MsgLoop

end NotifiTransport

import NotifiTransport.Client.LoopRun
import NotifiTransport.Client.StaleCommands

/-! # After a rejection

`Unauthorized` and `VersionMismatch` end the attempts. The three waits that follow them take
commands and a cancellation, and only a command that wakes them leads to another attempt: a
cancellation ends the loop, the wait of the version handshake by way of the top of the loop.
-/

namespace NotifiTransport

/-- The loop takes a command that wakes it. -/
def Event.wakes : Event → Bool
  | .loop (.cmd c) => Loop.isWake c
  | _ => false

namespace Loop

variable {snow : Snow} {pc : Postcard} {cfg : WsClientConfig} {now : ℕ} {l : Loop snow}
  {i : Input} {r : Loop snow × List Effect} {s : ConnectionState}

theorem not_ofAttempt_of_isTerminal (hs : s.isTerminal) : ¬ (Effect.publish s).ofAttempt := by
  cases s <;> cases hs <;> simp [Effect.ofAttempt]

/-- The publication of a rejection ends its step in the wait, with `pending` emptied last. -/
theorem step_publish_terminal (h : l.step pc cfg now i = some r) (hs : s.isTerminal)
    (hm : .publish s ∈ r.2) : r.1.phase.rejected ∧
      ∃ o, r.2 = o ++ [.clearPending] ∧ ∀ e ∈ o, ∃ s, e = .publish s := by
  rcases step_cases h with ⟨-, ha⟩ | hr | ⟨url, m, x, -, hx, ho, -⟩
  · cases ha with
    | goesOn _ ho => exact absurd (ho _ hm) (not_ofAttempt_of_isTerminal hs)
    | failed ho => exact absurd (ho _ hm) (not_ofAttempt_of_isTerminal hs)
    | @rejected phase s' o hp _ ho =>
      refine ⟨hp, o ++ [.publish s'], by simp, ?_⟩
      intro e he
      rcases List.mem_append.mp he with he | he
      · exact ⟨s', ho e he⟩
      · exact ⟨s', List.mem_singleton.mp he⟩
    | online =>
      cases List.mem_singleton.mp hm
      cases hs
  · rcases hr.publish hm with rfl | rfl | ⟨n, d, rfl⟩ <;> cases hs
  · rw [ho] at hm
    exact absurd (MsgLoop.step_isTraffic hx _ hm) (by simp [Effect.isTraffic])

/-- A step of a wait after a rejection. -/
theorem step_rejected (hp : l.phase.rejected) (h : l.step pc cfg now i = some r) :
    (r.2 = [] ∧ (r.1 = l ∨ i = .cancelled ∧ (r.1.phase = .top ∨ r.1.phase = .stopped))) ∨
      ∃ c, i = .cmd c ∧ isWake c := by
  have hna : ¬ l.phase.attempting := by
    cases hl : l.phase <;> rw [hl] at hp <;> cases hp <;> simp [Phase.attempting]
  rcases step_cases h with ⟨ha, -⟩ | hr | ⟨url, m, s, hl, -⟩
  · exact absurd ha hna
  · cases hr with
    | idle => exact Or.inl ⟨rfl, Or.inl rfl⟩
    | @woken c _ hw =>
      refine Or.inr ⟨c, rfl, ?_⟩
      cases hl : l.phase <;> rw [hl] at hp <;> cases hp <;> simp only [wokenBy, hl] at hw
      · cases c <;> first | exact hw | cases hw
      · exact hw
    | released =>
      refine Or.inl ⟨rfl, Or.inr ⟨rfl, ?_⟩⟩
      rcases l.released_phase with hn | ⟨hn, -⟩
      · exact Or.inr hn
      · exact Or.inl hn
    | flag _ hl | endpoint _ hl | elapsed hl | disconnected hl | auto _ hl =>
      rw [hl] at hp
      cases hp
  · rw [hl] at hp
    cases hp

end Loop

namespace WsClient

variable {snow : Snow} {pc : Postcard} {cfg : WsClientConfig} {parses : Text → Bool}
  {m w w' : WsClient snow} {e : Event} {es : List Event} {tr o : List Output}

/-- The loop waits after a rejection, or it stops. -/
def Held (w : WsClient snow) : Prop := w.loop.phase.rejected ∨ Stopping w

theorem reactAll_clearPending (w : WsClient snow) (x : List Effect) :
    (w.reactAll cfg (x ++ [.clearPending])).1.pending = ∅ := by
  induction x generalizing w with
  | nil => rfl
  | cons e x ih => exact ih (w.react cfg e).1

theorem Held.step (hw : Held w) (he : ¬ e.wakes) (h : w.step pc cfg parses e = some (w', o)) :
    Held w' ∧ ∀ url, .loop (.dial url) ∉ o := by
  rcases hw with hp | hs
  · rcases step_loop_cases h with ⟨hl, hout, -⟩ | ⟨i, r, rfl, ho, hr, hl, hout⟩
    · refine ⟨Or.inl (hl ▸ hp), ?_⟩
      intro url hm
      rw [← mem_loop?, hout] at hm
      cases hm
    · rcases Loop.step_rejected hp hr with ⟨hx, hcase⟩ | ⟨c, rfl, hc⟩
      · constructor
        · rcases hcase with hsame | ⟨rfl, hstop⟩
          · apply Or.inl
            rw [hl, hsame]
            exact hp
          · refine Or.inr ⟨step_cancelled h ho, ?_⟩
            rw [hl]
            exact hstop
        · intro url hm
          rw [← mem_loop?, hout, hx] at hm
          cases List.mem_singleton.mp hm
      · exact absurd hc he
  · obtain ⟨hs', hout⟩ := hs.step h
    refine ⟨Or.inr hs', ?_⟩
    intro url hm
    cases hout _ hm

theorem Held.run (hm : Held m) (he : ∀ e ∈ es, ¬ e.wakes)
    (h : (machine pc cfg parses snow).run m es = some (w, tr)) :
    Held w ∧ ∀ url, .loop (.dial url) ∉ tr := by
  induction es generalizing m tr with
  | nil =>
    obtain ⟨rfl, rfl⟩ := Mealy.run_nil.mp h
    exact ⟨hm, by simp⟩
  | cons e es ih =>
    obtain ⟨m', o, v, hs, hr, rfl⟩ := Mealy.run_cons.mp h
    obtain ⟨hm', ho⟩ := hm.step (he e List.mem_cons_self) hs
    obtain ⟨hw, hv⟩ := ih hm' (fun e' he' => he e' (List.mem_cons_of_mem _ he')) hr
    refine ⟨hw, ?_⟩
    intro url hd
    rcases List.mem_append.mp hd with hd | hd
    · exact ho url hd
    · exact hv url hd

/-- A loop that stops takes no command. -/
theorem Held.rejected_of_cmd {c : ClientCmd} (hw : Held w)
    (h : w.step pc cfg parses (.loop (.cmd c)) = some (w', o)) : w.loop.phase.rejected := by
  rcases hw with hp | ⟨-, hp⟩
  · exact hp
  · obtain ⟨-, r, hr, -⟩ := stepLoop_eq_some.mp h
    rcases hp with hp | hp <;> simp only [Loop.step, hp] at hr <;> cases hr

/-- After `Unauthorized` or `VersionMismatch` is published, nothing is pending and no connection is
opened until the loop takes a command that wakes it, which it does in the wait for one. -/
theorem run_rejected_held {s : ConnectionState} (hs : s.isTerminal)
    (h : m.step pc cfg parses e = some (w, o)) (hm : .loop (.publish s) ∈ o) :
    w.pending = ∅ ∧ (∀ url, .loop (.dial url) ∉ o) ∧
      ∀ es n tr, (∀ e ∈ es, ¬ e.wakes) → (machine pc cfg parses snow).run w es = some (n, tr) →
        (∀ url, .loop (.dial url) ∉ tr) ∧
          ∀ c n' o', n.step pc cfg parses (.loop (.cmd c)) = some (n', o') →
            n.loop.phase.rejected := by
  have hm' : Effect.publish s ∈ o.filterMap Output.loop? := mem_loop?.mpr hm
  rcases step_loop_cases h with ⟨-, hout, -⟩ | ⟨i, r, rfl, -, hr, hl, hout⟩
  · rw [hout] at hm'
    cases hm'
  rw [hout] at hm'
  obtain hm' | hm' := List.mem_cons.mp hm'
  · cases hm'
  obtain ⟨hp, x, hx, hpub⟩ := Loop.step_publish_terminal hr hs hm'
  refine ⟨?_, ?_, ?_⟩
  · -- the step ends with `pending.retain`
    obtain ⟨-, r', hr', rfl, -⟩ := stepLoop_eq_some.mp h
    rw [hr] at hr'
    cases hr'
    rw [hx]
    exact reactAll_clearPending _ x
  · intro url hd
    rw [← mem_loop?, hout, hx] at hd
    simp only [List.mem_cons, List.mem_append, reduceCtorEq, List.not_mem_nil, or_false,
      false_or] at hd
    obtain ⟨s', hs'⟩ := hpub _ hd
    cases hs'
  · intro es n tr he hrun
    have hheld : Held w := Or.inl (hl ▸ hp)
    obtain ⟨hn, htr⟩ := hheld.run he hrun
    refine ⟨htr, ?_⟩
    intro c n' o' hc
    exact hn.rejected_of_cmd hc

theorem run_rejected_held_unauthorized : ∃ m w u o,
    (machine .wire .sample (fun _ => true) (Snow.ideal Ideal.genuine)).run new
        (.setEndpoint "ws://a".toList :: (goingUnauthorized "ws://a".toList).dropLast) = some (m, u) ∧
      m.step .wire .sample (fun _ => true) (.loop (.authOutcome .unauthorized)) = some (w, o) ∧
      .loop (.publish .unauthorized) ∈ o ∧ w.pending = ∅ ∧
      ∀ es n tr, (∀ e ∈ es, ¬ e.wakes) →
        (machine .wire .sample (fun _ => true) (Snow.ideal Ideal.genuine)).run w es = some (n, tr) →
          ∀ url, .loop (.dial url) ∉ tr := by
  let M := machine .wire .sample (fun _ => true) (Snow.ideal Ideal.genuine)
  let x := M.run new (.setEndpoint "ws://a".toList :: (goingUnauthorized "ws://a".toList).dropLast)
  have hx : x = some (x.get rfl) := (Option.some_get rfl).symm
  let y := (x.get rfl).1.step .wire .sample (fun _ => true) (.loop (.authOutcome .unauthorized))
  have hy : y = some (y.get rfl) := (Option.some_get rfl).symm
  have hm : .loop (.publish .unauthorized) ∈ (y.get rfl).2 := by decide
  obtain ⟨hpend, -, hrun⟩ := run_rejected_held rfl hy hm
  exact ⟨_, _, _, _, hx, hy, hm, hpend, fun es n tr he h => (hrun es n tr he h).1⟩

end WsClient

end NotifiTransport

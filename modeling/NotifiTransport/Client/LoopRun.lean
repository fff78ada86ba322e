import NotifiTransport.Client.Attempts
import NotifiTransport.Client.Requests

/-! # The loop inside the client

Whatever the callers do, the loop runs as the connection loop does on its own. So the results
about runs of the connection loop hold of every run of the client.
-/

namespace NotifiTransport

def Output.loop? : Output → Option Effect
  | .loop e => some e
  | _ => none

namespace WsClient

variable {snow : Snow} {pc : Postcard} {cfg : WsClientConfig} {parses : Text → Bool}
  {w w' : WsClient snow} {e : Event} {es : List Event} {tr o : List Output}

theorem loop?_react (w : WsClient snow) (e : Effect) :
    (w.react cfg e).2.filterMap Output.loop? = [] := by
  cases e with
  | dispatch f =>
    rw [List.filterMap_eq_nil_iff]
    intro x hx
    rw [(dispatchFrame_output hx).1]
    rfl
  | _ => rfl

theorem loop?_reactAll (w : WsClient snow) (es : List Effect) :
    (w.reactAll cfg es).2.filterMap Output.loop? = es := by
  induction es generalizing w with
  | nil => rfl
  | cons e es ih =>
    simp only [reactAll, List.filterMap_cons, List.filterMap_append, Output.loop?, loop?_react, ih,
      List.nil_append]

theorem mem_loop? {x : Effect} : x ∈ o.filterMap Output.loop? ↔ .loop x ∈ o := by
  rw [List.mem_filterMap]
  constructor
  · rintro ⟨y, hy, hx⟩
    cases y <;> cases hx
    exact hy
  · intro h
    exact ⟨_, h, rfl⟩

/-- A step of the client is a step of its loop or leaves the loop alone. -/
theorem step_loop_cases (h : w.step pc cfg parses e = some (w', o)) :
    (w'.loop = w.loop ∧ o.filterMap Output.loop? = [] ∧ ∀ i, e ≠ .loop i) ∨
      ∃ i r, e = .loop i ∧ w.offers i ∧ w.loop.step pc cfg w.now i = some r ∧ w'.loop = r.1 ∧
        o.filterMap Output.loop? = .resumed i :: r.2 := by
  by_cases hx : ∃ i, e = .loop i
  · obtain ⟨i, rfl⟩ := hx
    obtain ⟨ho, r, hr, rfl, rfl⟩ := stepLoop_eq_some.mp h
    obtain ⟨q, rs, p, hw, -⟩ := reactAll_eq cfg (w.resume i r.1) r.2
    refine Or.inr ⟨i, r, rfl, ho, hr, by rw [hw, resume], ?_⟩
    rw [List.filterMap_cons, loop?_reactAll]
    rfl
  · have hne : ∀ i, e ≠ .loop i := fun i he => hx ⟨i, he⟩
    refine Or.inl ⟨?_, ?_, hne⟩
    · rcases step_shared h with ⟨i, rfl, -⟩ | ⟨k, c, -, -, rfl⟩ | ⟨-, hl, -⟩ | ⟨-, -, hquiet⟩
      · exact absurd rfl (hne i)
      · obtain ⟨q, hq, -⟩ := trySend_eq cfg { w with calls := w.calls.eraseIdx k } c
        rw [hq]
      · exact hl
      · exact hquiet.loop
    · rw [List.filterMap_eq_nil_iff]
      intro x hm
      cases x with
      | loop y =>
        obtain ⟨i, rfl, -⟩ := step_loop h hm
        exact absurd rfl (hne i)
      | _ => rfl

theorem step_simulates (h : w.step pc cfg parses e = some (w', o)) : ∃ is,
    (Loop.machine pc cfg snow).run w.loop is = some (w'.loop, o.filterMap Output.loop?) := by
  rcases step_loop_cases h with ⟨hl, ho, -⟩ | ⟨i, r, -, -, hr, hl, ho⟩ <;> rw [hl, ho]
  · exact ⟨[], rfl⟩
  · exact ⟨[(w.now, i)], Mealy.run_cons.mpr
      ⟨r.1, _, [], Loop.machine_step.mpr ⟨r, hr, rfl, rfl⟩, rfl, (List.append_nil _).symm⟩⟩

theorem run_simulates (h : (machine pc cfg parses snow).run new es = some (w, tr)) : ∃ is,
    (Loop.machine pc cfg snow).run .init is = some (w.loop, tr.filterMap Output.loop?) :=
  Mealy.run_simulation loop Output.loop? (fun _ _ _ _ hs => step_simulates hs) h

/-- What every step of the connection loop preserves holds of the loop of a client. -/
theorem run_loop_invariant {P : Loop snow → Prop} (init : P .init)
    (step : ∀ l now i r, P l → l.step pc cfg now i = some r → P r.1)
    (h : (machine pc cfg parses snow).run new es = some (w, tr)) : P w.loop := by
  refine Mealy.run_invariant (P := fun w => P w.loop) ?_ h init
  intro w e w' o hw hs
  rcases step_loop_cases hs with ⟨hl, -⟩ | ⟨i, r, -, -, hr, hl, -⟩ <;> rw [hl]
  · exact hw
  · exact step _ _ _ _ hw hr

/-- The two flags are the same in both states. -/
def SameFlags (w w' : WsClient snow) : Prop :=
  w'.cancelled = w.cancelled ∧ w'.autoReconnect = w.autoReconnect

theorem sameFlags_removePending (w : WsClient snow) (id : UInt32) :
    SameFlags w (w.removePending id) := by
  unfold removePending
  split <;> exact ⟨rfl, rfl⟩

theorem sameFlags_stepRequest {k : ℕ} {r : Request} (h : w.stepRequest cfg k r e = some (w', o)) :
    SameFlags w w' := by
  unfold stepRequest at h
  repeat' split at h
  all_goals cases h
  all_goals first
    | exact ⟨rfl, rfl⟩
    | exact w.sameFlags_removePending r.id

/-- A step other than `shutdown` and `set_auto_reconnect`. -/
theorem step_sameFlags (h : w.step pc cfg parses e = some (w', o)) (hs : e ≠ .shutdown)
    (ha : ∀ b, e ≠ .setAutoReconnect b) : SameFlags w w' := by
  cases e <;> simp only [WsClient.step] at h
  case loop i =>
    obtain ⟨-, r, -, rfl, -⟩ := stepLoop_eq_some.mp h
    obtain ⟨q, hq, -⟩ := w.resume_eq i r.1
    obtain ⟨q', rs, p, hw, -⟩ := reactAll_eq cfg (w.resume i r.1) r.2
    rw [hw, hq]
    exact ⟨rfl, rfl⟩
  case register | permit | enqueue | refuse | resolve | expire | remove | drop =>
    split at h
    · exact sameFlags_stepRequest h
    · cases h
  case notify k =>
    split at h <;> cases h
    next c _ =>
    obtain ⟨q, hq, -⟩ := trySend_eq cfg { w with calls := w.calls.eraseIdx k } c
    rw [hq]
    exact ⟨rfl, rfl⟩
  case reconnect | wake | sendEvent =>
    cases h
    unfold trySend
    split <;> exact ⟨rfl, rfl⟩
  case setEndpoint =>
    cases h
    unfold setEndpoint
    split <;> exact ⟨rfl, rfl⟩
  case shutdown => exact absurd rfl hs
  case setAutoReconnect b => exact absurd rfl (ha b)
  all_goals
    cases h
    exact ⟨rfl, rfl⟩

theorem step_cancelled_eq (h : w.step pc cfg parses e = some (w', o)) (he : e ≠ .shutdown) :
    w'.cancelled = w.cancelled := by
  by_cases ha : ∃ b, e = .setAutoReconnect b
  · obtain ⟨b, rfl⟩ := ha
    cases h
    rfl
  · exact (step_sameFlags h he fun b hb => ha ⟨b, hb⟩).1

/-- Auto-reconnect stays off unless it is switched on. -/
theorem step_autoReconnect (h : w.step pc cfg parses e = some (w', o))
    (he : e ≠ .setAutoReconnect true) (hw : w.autoReconnect = false) :
    w'.autoReconnect = false := by
  by_cases hs : e = .shutdown
  · subst hs
    cases h
    exact hw
  by_cases ha : ∃ b, e = .setAutoReconnect b
  · obtain ⟨b, rfl⟩ := ha
    cases h
    cases b
    · rfl
    · exact absurd rfl he
  · exact (step_sameFlags h hs fun b hb => ha ⟨b, hb⟩).2.trans hw

/-- `shutdown` is not taken back. -/
theorem step_cancelled (h : w.step pc cfg parses e = some (w', o)) (hc : w.cancelled) :
    w'.cancelled := by
  by_cases he : e = .shutdown
  · subst he
    cases h
    rfl
  · rw [step_cancelled_eq h he]
    exact hc

/-- The effect changes the state that is shared with the callers. -/
def shares : Effect → Bool
  | .dispatch _ | .clearPending => true
  | _ => false

theorem reactAll_of_not_shares {x : List Effect} (hx : ∀ e ∈ x, ¬ shares e) :
    w.reactAll cfg x = (w, x.map .loop) := by
  induction x with
  | nil => rfl
  | cons e x ih =>
    have he : w.react cfg e = (w, []) := by
      have hne := hx e List.mem_cons_self
      cases e with
      | dispatch | clearPending => exact absurd rfl hne
      | _ => rfl
    simp only [reactAll, he, ih fun e he => hx e (List.mem_cons_of_mem _ he), List.nil_append,
      List.map_cons]

/-- A step of the loop that leaves the shared state alone. -/
theorem step_of_loop {i : Input} {r : Loop snow × List Effect} (ho : w.offers i)
    (hr : w.loop.step pc cfg w.now i = some r) (hx : ∀ e ∈ r.2, ¬ shares e) :
    w.step pc cfg parses (.loop i) =
      some (w.resume i r.1, .loop (.resumed i) :: r.2.map .loop) := by
  simp only [WsClient.step, stepLoop, ho, if_true, hr, Option.map_some, reactAll_of_not_shares hx]

theorem not_shares_onUrl (l : Loop snow) (now : ℕ) (u : Option Text) :
    ∀ e ∈ (l.onUrl cfg now u).2, ¬ shares e := by
  rcases l.onUrl_cases cfg now u with
    ⟨-, hu⟩ | ⟨url, rfl, ⟨-, hu⟩ | ⟨delay, -, ⟨-, hu⟩ | ⟨-, hu⟩⟩⟩ <;> rw [hu]
  · simp [shares]
  · simp [shares]
  · split <;> simp [shares]
  · simp [shares]

variable (pc cfg parses) in
/-- At the top of the loop the flag and the endpoint are read. -/
theorem run_reread (hp : w.loop.phase = .top) (hc : w.cancelled = false) :
    (machine pc cfg parses snow).run w [.loop (.cancelFlag false), .loop (.url w.url)] =
      some ({ w with
          loop := ((w.loop.goto .readUrl).onUrl cfg w.now w.url).1
          ready := !w.queue.isEmpty },
        .loop (.resumed (.cancelFlag false)) :: .loop (.resumed (.url w.url)) ::
          ((w.loop.goto .readUrl).onUrl cfg w.now w.url).2.map .loop) := by
  let m := w.resume (.cancelFlag false) (w.loop.goto .readUrl)
  have h₁ : w.step pc cfg parses (.loop (.cancelFlag false)) =
      some (m, [.loop (.resumed (.cancelFlag false))]) :=
    step_of_loop (r := (w.loop.goto .readUrl, [])) (by simp [offers, hc]) (by simp [Loop.step, hp])
      (by simp)
  have h₂ : m.step pc cfg parses (.loop (.url w.url)) =
      some (m.resume (.url w.url) ((w.loop.goto .readUrl).onUrl cfg w.now w.url).1,
        .loop (.resumed (.url w.url)) ::
          ((w.loop.goto .readUrl).onUrl cfg w.now w.url).2.map .loop) :=
    step_of_loop (by simp [offers, m, resume, take]) rfl (not_shares_onUrl _ _ _)
  refine Mealy.run_cons.mpr ⟨_, _, _, h₁, Mealy.run_cons.mpr ⟨_, _, [], h₂, rfl, ?_⟩, rfl⟩
  simp

/-- The loop is about to find that it is cancelled, or has returned. -/
def Stopping (w : WsClient snow) : Prop :=
  w.cancelled ∧ (w.loop.phase = .top ∨ w.loop.phase = .stopped)

theorem Stopping.step (hw : Stopping w) (h : w.step pc cfg parses e = some (w', o)) :
    Stopping w' ∧ ∀ x, .loop x ∈ o → x = .resumed (.cancelFlag true) := by
  obtain ⟨hc, hp⟩ := hw
  rcases step_loop_cases h with ⟨hl, hout, -⟩ | ⟨i, r, -, ho, hr, hl, hout⟩
  · refine ⟨⟨step_cancelled h hc, hl ▸ hp⟩, ?_⟩
    intro x hx
    rw [← mem_loop?, hout] at hx
    cases hx
  · rcases hp with hp | hp <;> simp only [Loop.step, hp] at hr
    · split at hr <;> cases hr
      next b =>
      obtain rfl : true = b := by simpa [offers, hc] using ho
      refine ⟨⟨step_cancelled h hc, Or.inr (by rw [hl]; rfl)⟩, ?_⟩
      intro x hx
      rw [← mem_loop?, hout] at hx
      exact List.mem_singleton.mp hx
    · cases hr

end WsClient

end NotifiTransport

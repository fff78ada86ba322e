import NotifiTransport.Client.Attempts
import NotifiTransport.Client.EndedRequests
import NotifiTransport.Client.Endpoint
import NotifiTransport.Client.LoopRun

/-! # Requests that the loop takes from the channel

Seven places of the loop receive from the command channel. The message loop writes the frame of
a `Send`, or it closes the connection and so ends the request; every other place drops the
command and leaves the request in `pending`.
-/

namespace NotifiTransport

/-- The frame that a call of `request` sends. -/
def Request.frame (r : Request) : Frame := ⟨r.id, .message, r.data⟩

/-- The loop is suspended, other than in the transmission of the frames it has taken. -/
def Phase.waits {snow : Snow} : Phase snow → Bool
  | .top | .readUrl | .offline | .checkAuto | .stopped | .panicked => false
  | .online _ m =>
    match m.phase with
    | .writing _ _ | .draining _ => false
    | _ => true
  | _ => true

def Phase.isOnline {snow : Snow} : Phase snow → Bool
  | .online _ _ => true
  | _ => false

theorem Phase.exists_of_isOnline {snow : Snow} {p : Phase snow} (h : p.isOnline) :
    ∃ url m, p = .online url m := by
  cases p <;> cases h
  exact ⟨_, _, rfl⟩

namespace MsgLoop

variable {snow : Snow} {pc : Postcard} {cfg : WsClientConfig} {now : ℕ} {m : MsgLoop snow}
  {i : Input} {r : Option (MsgLoop snow) × List Effect} {f : Frame}

/-- The frame is on its way to the socket, or the socket is being closed. -/
def Owes (f : Frame) (m : MsgLoop snow) : Prop :=
  m.closed ∨ match m.phase with
    | .writing g _ => f = g ∨ f ∈ m.scheduler.items
    | .draining false => f ∈ m.scheduler.items
    | _ => False

/-- The socket is being closed wherever a disconnect has been taken note of. -/
def Shuts (m : MsgLoop snow) : Prop :=
  match m.phase with
  | .draining true | .drainClosing | .closing => m.closed
  | _ => True

/-- The step writes the frame, still owes it, or ends the message loop. -/
def Pays (f : Frame) (r : Option (MsgLoop snow) × List Effect) : Prop :=
  .wrote f ∈ r.2 ∨ ∀ m', r.1 = some m' → m'.Owes f

theorem Pays.returns {o : List Effect} : Pays f ((none : Option (MsgLoop snow)), o) := by
  apply Or.inr
  intro m' h
  cases h

theorem pays_writeChunks {g : Frame} (h : f = g ∨ f ∈ m.scheduler.items) (cs : List Bytes)
    (o : List Effect) : Pays f (some (m.writeChunks g cs).1, o ++ (m.writeChunks g cs).2) := by
  cases cs with
  | nil =>
    rcases h with rfl | h
    · exact Or.inl (by simp [writeChunks])
    · apply Or.inr
      rintro _ ⟨⟩
      exact Or.inr h
  | cons c cs =>
    apply Or.inr
    rintro _ ⟨⟩
    exact Or.inr h

theorem pays_pump (h : f ∈ m.scheduler.items) : Pays f (m.pump pc) := by
  rcases m.pump_cases pc with
    ⟨_, hpop, hm⟩ | hm | ⟨g, scheduler, _, noise, chunks, hpop, -, -, hm⟩ <;> rw [hm]
  · have hempty := WfqScheduler.isEmpty_iff_items.mp (WfqScheduler.pop_none hpop).1
    rw [hempty] at h
    cases h
  · exact .returns
  · rw [WfqScheduler.pop_some hpop, Multiset.mem_cons] at h
    exact pays_writeChunks (m := { m with scheduler := scheduler, noise := noise }) h chunks
      [.transmit g]

theorem pays_of_closed (h : m.step pc cfg now i = some r) (hc : m.closed) : Pays f r := by
  apply Or.inr
  intro m' hm'
  exact Or.inl (step_staysClosed h m' hm' hc)

theorem shuts_of_closed (h : m.closed) : m.Shuts := by
  unfold Shuts
  split
  all_goals first | exact h | trivial

theorem shuts_writeChunks (m : MsgLoop snow) (f : Frame) (cs : List Bytes) :
    (m.writeChunks f cs).1.Shuts := by
  cases cs <;> trivial

theorem shuts_pump {m' : MsgLoop snow} (h : (m.pump pc).1 = some m') : m'.Shuts := by
  rcases m.pump_cases pc with ⟨_, -, hm⟩ | hm | ⟨f, _, _, _, chunks, -, -, -, hm⟩ <;>
    rw [hm] at h <;> cases h
  · trivial
  · exact shuts_writeChunks _ f chunks

theorem shuts_onHeartbeat {m' : MsgLoop snow} (h : (m.onHeartbeat pc cfg now).1 = some m') :
    m'.Shuts := by
  rcases m.onHeartbeat_cases pc cfg now with
    hm | hm | ⟨_, _, _, -, -, ⟨_, -, hm⟩ | ⟨chunks, -, hm⟩⟩ <;> rw [hm] at h <;> cases h
  · exact shuts_of_closed rfl
  · trivial
  · trivial
  · cases chunks <;> trivial

theorem step_shuts {m' : MsgLoop snow} (hm : m.Shuts) (h : m.step pc cfg now i = some r)
    (hm' : r.1 = some m') : m'.Shuts := by
  by_cases hc : m.closed
  · exact shuts_of_closed (step_staysClosed h m' hm' hc)
  cases hp : m.phase <;> simp only [step, hp] at h <;> simp only [Shuts, hp] at hm
  case select =>
    split at h <;> cases h
    · cases hm'
    · unfold onPacket at hm'
      dsimp only at hm'
      split at hm' <;> cases hm'
      simp only [Shuts, hp]
    · cases hm'
    · next c =>
      cases c with
      | send frame priority => exact shuts_pump hm'
      | endpointChanged | reconnect =>
        cases hm'
        exact shuts_of_closed rfl
      | wakeUp =>
        cases hm'
        simp only [Shuts, hp]
    · exact shuts_onHeartbeat hm'
  case writing f rest =>
    split at h <;> cases h <;> cases hm'
    exact shuts_writeChunks _ _ _
  case draining disconnect =>
    cases disconnect with
    | true => exact absurd hm hc
    | false =>
      split at h <;> cases h
      · next c =>
        cases c <;> cases hm'
        · trivial
        · exact shuts_of_closed rfl
        · exact shuts_of_closed rfl
        · trivial
      · exact shuts_pump hm'
  case pinging rest =>
    split at h <;> cases h <;> cases hm'
    · cases rest <;> trivial
    · trivial
  all_goals exact absurd hm hc

/-- A frame that the message loop takes from the channel. -/
theorem pays_send {priority : MessagePriority} (hm : m.Shuts)
    (h : m.step pc cfg now (.cmd (.send f priority)) = some r) : Pays f r := by
  have hmem : f ∈ (m.scheduler.enqueue f priority).items := by
    rw [WfqScheduler.items_enqueue]
    exact Multiset.mem_cons_self f _
  by_cases hc : m.closed
  · exact pays_of_closed h hc
  cases hp : m.phase <;> simp only [step, hp] at h
  case select =>
    cases h
    exact pays_pump (m := { m with scheduler := m.scheduler.enqueue f priority }) hmem
  case draining disconnect =>
    cases disconnect with
    | true =>
      simp only [Shuts, hp] at hm
      exact absurd hm hc
    | false =>
      cases h
      apply Or.inr
      rintro _ ⟨⟩
      exact Or.inr hmem
  all_goals cases h

/-- A frame that is owed stays so until it is written or the message loop ends. -/
theorem step_pays (ho : m.Owes f) (h : m.step pc cfg now i = some r) : Pays f r := by
  by_cases hc : m.closed
  · exact pays_of_closed h hc
  have hitems := ho.resolve_left hc
  cases hp : m.phase <;> simp only [hp] at hitems <;> simp only [step, hp] at h
  case writing g rest =>
    split at h <;> cases h
    · exact pays_writeChunks hitems rest []
    · exact .returns
  case draining disconnect =>
    cases disconnect with
    | true => cases hitems
    | false =>
      split at h <;> cases h
      · next c =>
        apply Or.inr
        cases c <;> rintro _ ⟨⟩
        · apply Or.inr
          change f ∈ (m.scheduler.enqueue _ _).items
          rw [WfqScheduler.items_enqueue]
          exact Multiset.mem_cons_of_mem hitems
        · exact Or.inl rfl
        · exact Or.inl rfl
        · exact Or.inr hitems
      · exact pays_pump hitems

end MsgLoop

namespace Loop

variable {snow : Snow} {pc : Postcard} {cfg : WsClientConfig} {now : ℕ} {l : Loop snow}
  {i : Input} {r : Loop snow × List Effect} {f : Frame}

/-- The connection still has to write the frame, or it has just ended. -/
def Owes (f : Frame) (l : Loop snow) : Prop :=
  (∃ url m, l.phase = .online url m ∧ m.Owes f) ∨ l.phase = .offline

theorem step_shuts (hl : ∀ url m, l.phase = .online url m → m.Shuts)
    (h : l.step pc cfg now i = some r) : ∀ url m, r.1.phase = .online url m → m.Shuts := by
  intro url m' hp
  rcases step_toOnline h hp with ⟨m, s, hm, hs, hm'⟩ | ⟨noise, rfl⟩
  · exact MsgLoop.step_shuts (hl url m hm) hs hm'
  · cases hp
    trivial

theorem owes_of_pays {url : Text} {m : MsgLoop snow} {s : Option (MsgLoop snow) × List Effect}
    (hp : l.phase = .online url m) (hs : m.step pc cfg now i = some s) (hf : MsgLoop.Pays f s)
    (h : l.step pc cfg now i = some r) : .wrote f ∈ r.2 ∨ r.1.Owes f := by
  simp only [step, hp, hs, Option.map_some, Option.some.injEq] at h
  subst h
  rcases hf with hw | hf
  · exact Or.inl hw
  · apply Or.inr
    rcases hm : s.1 with _ | m'
    · exact Or.inr rfl
    · exact Or.inl ⟨url, m', rfl, hf m' hm⟩

theorem step_owes (ho : l.Owes f) (h : l.step pc cfg now i = some r) :
    .wrote f ∈ r.2 ∨ r.1.Owes f ∨ r.2 = [.publish .disconnected, .clearPending] := by
  rcases ho with ⟨url, m, hp, hm⟩ | hp
  · obtain ⟨s, hs⟩ : ∃ s, m.step pc cfg now i = some s := by
      simp only [step, hp] at h
      obtain ⟨s, hs, -⟩ := Option.map_eq_some_iff.mp h
      exact ⟨s, hs⟩
    exact (owes_of_pays hp hs (MsgLoop.step_pays hm hs) h).imp_right Or.inl
  · simp only [step, hp] at h
    split at h <;> cases h
    exact Or.inr (Or.inr rfl)

end Loop

namespace WsClient

variable {snow : Snow} {pc : Postcard} {cfg : WsClientConfig} {parses : Text → Bool}
  {w w' n : WsClient snow} {e : Event} {es : List Event} {tr o v : List Output} {i : ℕ}
  {r : Request}

/-- The request is not left without an answer: its frame was written, its entry is gone, or the
connection that has taken it still owes the frame. -/
def Cared (i : ℕ) (r : Request) (w : WsClient snow) (tr : List Output) : Prop :=
  .loop (.wrote r.frame) ∈ tr ∨ w.pending.lookup r.id ≠ some i ∨ w.loop.Owes r.frame

/-- The `i`-th call has registered its request. -/
def Registered (i : ℕ) (w : WsClient snow) : Prop :=
  ∃ q, w.requests[i]? = some q ∧ q.stage ≠ .drawn

theorem Registered.step (hr : Registered i w) (h : w.step pc cfg parses e = some (w', o)) :
    Registered i w' := by
  obtain ⟨q, hq, hs⟩ := hr
  obtain ⟨q', hq', hf, -⟩ := step_request h hq
  exact ⟨q', hq', fun hd => hs (hf.2.1 hd)⟩

theorem step_cared (hr : Registered i w) (hc : Cared i r w tr)
    (h : w.step pc cfg parses e = some (w', o)) : Cared i r w' (tr ++ o) := by
  rcases hc with hw | hp | ho
  · exact Or.inl (List.mem_append_left _ hw)
  · refine Or.inr (Or.inl ?_)
    intro hi
    rcases step_pending h hi with hold | ⟨q, hq, hs, -⟩
    · exact hp hold
    · obtain ⟨q', hq', hs'⟩ := hr
      rw [hq] at hq'
      cases hq'
      exact hs' hs
  · rcases step_loop_cases h with ⟨hl, -⟩ | ⟨x, s, rfl, -, hs, hl, hout⟩
    · exact Or.inr (Or.inr (hl ▸ ho))
    · rcases Loop.step_owes ho hs with hw | ho' | hcl
      · refine Or.inl (List.mem_append_right _ (mem_loop?.mp ?_))
        rw [hout]
        exact List.mem_cons_of_mem _ hw
      · exact Or.inr (Or.inr (hl ▸ ho'))
      · refine Or.inr (Or.inl ?_)
        obtain ⟨-, s', hs', rfl, -⟩ := stepLoop_eq_some.mp h
        rw [hs] at hs'
        cases hs'
        simp only [hcl, reactAll, react]
        intro hi
        cases hi

/-- Whatever happens after the loop has taken the frame of the `i`-th request: when the loop waits
again, the frame is written, the request has no entry any more, or the connection is being closed. -/
def Accounted (pc : Postcard) (cfg : WsClientConfig) (parses : Text → Bool) (i : ℕ) (r : Request)
    (w : WsClient snow) (o : List Output) : Prop :=
  ∀ es n v, (machine pc cfg parses snow).run w es = some (n, v) → n.loop.phase.waits →
    .loop (.wrote r.frame) ∈ o ++ v ∨ n.pending.lookup r.id ≠ some i ∨ n.loop.phase.closed

theorem Cared.accounted (hr : Registered i w) (hc : Cared i r w o) :
    Accounted pc cfg parses i r w o := by
  intro es n v hrun hwaits
  have hn : Registered i n ∧ Cared i r n (o ++ v) := by
    refine Mealy.run_induction (P := fun _ v n => Registered i n ∧ Cared i r n (o ++ v))
      ⟨hr, by simpa using hc⟩ ?_ hrun
    rintro es v m e m' o' - ⟨hr, hc⟩ hs
    refine ⟨hr.step hs, ?_⟩
    rw [← List.append_assoc]
    exact step_cared hr hc hs
  rcases hn.2 with hw | hp | ⟨url, m, hp, hm⟩ | hp
  · exact Or.inl hw
  · exact Or.inr (Or.inl hp)
  · -- the message loop waits only with the socket closed
    refine Or.inr (Or.inr ?_)
    rw [hp] at hwaits ⊢
    unfold MsgLoop.Owes at hm
    simp only [Phase.waits] at hwaits
    rcases hm with hc | hm
    · exact hc
    · split at hm
      · next hph => simp [hph] at hwaits
      · next hph => simp [hph] at hwaits
      · cases hm
  · rw [hp] at hwaits
    cases hwaits

/-- A loop that stops takes no part in anything. -/
theorem Stopping.accounted (hs : Stopping w) : Accounted pc cfg parses i r w o := by
  intro es n v hrun hwaits
  have hn : Stopping n := Mealy.run_invariant (fun _ _ _ _ hs h => (hs.step h).1) hrun hs
  rcases hn.2 with hp | hp <;> rw [hp] at hwaits <;> cases hwaits

theorem waits_of_receives {p : Phase snow} (hp : p.receives) : p.waits ∧ ¬ p.closed := by
  cases p <;> first | exact ⟨rfl, by simp [Phase.closed]⟩ | cases hp

/-- A loop that is about to read its endpoint waits at once. -/
theorem not_accounted_of_top (hp : w.loop.phase = .top) (hc : w.cancelled = false)
    {delay : Duration}
    (hd : cfg.backoff.nextDelay w.loop.reconnectAttempt = some delay) (hpos : 0 < delay.nanos)
    (hi : w.pending.lookup r.id = some i) (ho : .loop (.wrote r.frame) ∉ o) :
    ¬ Accounted pc cfg parses i r w o := by
  intro ha
  have hrun := run_reread pc cfg parses hp hc
  have hout : ∀ x ∈ ((w.loop.goto .readUrl).onUrl cfg w.now w.url).2, x ≠ .wrote r.frame := by
    rcases (w.loop.goto .readUrl).onUrl_cases cfg w.now w.url with
      ⟨-, hu⟩ | ⟨url, -, ⟨-, hu⟩ | ⟨d, -, ⟨-, hu⟩ | ⟨-, hu⟩⟩⟩ <;> rw [hu]
    · simp
    · simp
    · split <;> simp
    · simp
  have hphase : ((w.loop.goto .readUrl).onUrl cfg w.now w.url).1.phase.receives := by
    rcases (w.loop.goto .readUrl).onUrl_cases cfg w.now w.url with
      ⟨-, hu⟩ | ⟨url, -, ⟨hn, -⟩ | ⟨d, hd', ⟨-, hu⟩ | ⟨hz, -⟩⟩⟩
    · rw [hu]
      rfl
    · exact absurd (hd.symm.trans hn) (by simp)
    · rw [hu]
      rfl
    · cases hd.symm.trans hd'
      omega
  obtain ⟨hwaits, hclosed⟩ := waits_of_receives hphase
  rcases ha _ _ _ hrun hwaits with hw | hl | hcl
  · rcases List.mem_append.mp hw with hw | hw
    · exact ho hw
    · simp only [List.mem_cons, reduceCtorEq, Output.loop.injEq, false_or, List.mem_map,
        exists_eq_right] at hw
      exact hout _ hw rfl
  · exact hl hi
  · exact hclosed hcl

/-- A loop in a backoff waits for the delay of its counter. -/
theorem run_backoff {url : Text} {d : ℕ}
    (h : (machine pc cfg parses snow).run new es = some (w, tr))
    (hp : w.loop.phase = .backoff url d) :
    ∃ delay, cfg.backoff.nextDelay w.loop.reconnectAttempt = some delay ∧ 0 < delay.nanos := by
  refine run_loop_invariant (P := fun l => ∀ url d, l.phase = .backoff url d →
    ∃ delay, cfg.backoff.nextDelay l.reconnectAttempt = some delay ∧ 0 < delay.nanos) ?_ ?_ h url d hp
  · rintro url d ⟨⟩
  · intro l now i r _ hs url d hp
    obtain ⟨delay, -, -, hd, hpos, -, hr⟩ := Loop.step_backoff hs hp
    refine ⟨delay, ?_, hpos⟩
    rw [hr]
    exact hd

section Taken

variable {priority : MessagePriority}

/-- A wait that takes the command and goes on forgets it. -/
theorem not_accounted_of_idle (hw : w.loop.phase.receives) (hi : w.pending.lookup r.id = some i)
    (ho : .loop (.wrote r.frame) ∉ o) : ¬ Accounted pc cfg parses i r w o := by
  intro ha
  obtain ⟨hwaits, hclosed⟩ := waits_of_receives hw
  rcases ha [] w [] rfl hwaits with hwrote | hl | hcl
  · rw [List.append_nil] at hwrote
    exact ho hwrote
  · exact hl hi
  · exact hclosed hcl

/-- Of the waits only a backoff is interrupted by a request. -/
theorem backoff_of_woken {l : Loop snow} {f : Frame} (hp : l.phase.receives)
    (hw : l.wokenBy (.send f priority)) : ∃ url d, l.phase = .backoff url d := by
  unfold Loop.wokenBy at hw
  cases hl : l.phase <;> rw [hl] at hp hw <;> cases hp
  case backoff url d => exact ⟨url, d, rfl⟩
  all_goals cases hw

theorem not_accounted_of_taken (h : (machine pc cfg parses snow).run new es = some (w, tr))
    (ht : w.step pc cfg parses (.loop (.cmd (.send r.frame priority))) = some (w', o))
    (honl : ¬ w.loop.phase.isOnline) (hi : w.pending.lookup r.id = some i)
    (hback : ¬ (w.cancelled ∧ ∃ url d, w.loop.phase = .backoff url d)) :
    ¬ Accounted pc cfg parses i r w' o := by
  obtain ⟨-, s, hst, hw', ho⟩ := stepLoop_eq_some.mp ht
  rcases Loop.step_cmd hst with ⟨url, m, hp⟩ | ⟨hp, rfl⟩
  · rw [hp] at honl
    exact absurd rfl honl
  simp only [reactAll] at hw' ho
  have hout : .loop (.wrote r.frame) ∉ o := by simp [ho]
  by_cases hwk : w.loop.wokenBy (.send r.frame priority)
  · obtain ⟨url, d, hp⟩ := backoff_of_woken hp hwk
    have hc : w.cancelled = false := by
      by_contra hc
      exact hback ⟨by simpa using hc, url, d, hp⟩
    obtain ⟨delay, hd, hpos⟩ := run_backoff h hp
    have hl : w.loop.woken (.send r.frame priority) = w.loop.goto .top := by
      simp only [Loop.woken, hp, Loop.onBackoffCmd]
    rw [if_pos hwk, hl] at hw'
    subst hw'
    apply not_accounted_of_top _ _ _ hpos _ hout
    · rfl
    · exact hc
    · exact hd
    · exact hi
  · rw [if_neg hwk] at hw'
    subst hw'
    apply not_accounted_of_idle _ _ hout
    · exact hp
    · exact hi

/-- The message loop owes what it takes. -/
theorem accounted_of_online (h : (machine pc cfg parses snow).run new es = some (w, tr))
    (hreg : Registered i w)
    (ht : w.step pc cfg parses (.loop (.cmd (.send r.frame priority))) = some (w', o))
    (hp : w.loop.phase.isOnline) : Accounted pc cfg parses i r w' o := by
  obtain ⟨-, s, hst, -, -⟩ := stepLoop_eq_some.mp ht
  obtain ⟨url, m, hm⟩ := Phase.exists_of_isOnline hp
  have hshuts : ∀ url m, w.loop.phase = .online url m → m.Shuts := by
    refine run_loop_invariant (P := fun l => ∀ url m, l.phase = .online url m → m.Shuts) ?_ ?_ h
    · rintro url m ⟨⟩
    · intro l now i r hl hs
      exact Loop.step_shuts hl hs
  obtain ⟨x, hx⟩ : ∃ x, m.step pc cfg w.now (.cmd (.send r.frame priority)) = some x := by
    simp only [Loop.step, hm] at hst
    obtain ⟨x, hx, -⟩ := Option.map_eq_some_iff.mp hst
    exact ⟨x, hx⟩
  have hpays := MsgLoop.pays_send (hshuts url m hm) hx
  apply Cared.accounted (hreg.step ht)
  rcases step_loop_cases ht with ⟨-, -, hne⟩ | ⟨x', s', he, -, hst', hl, hout⟩
  · exact absurd rfl (hne _)
  cases he
  rcases Loop.owes_of_pays hm hx hpays hst' with hw | ho
  · refine Or.inl (mem_loop?.mp ?_)
    rw [hout]
    exact List.mem_cons_of_mem _ hw
  · exact Or.inr (Or.inr (hl ▸ ho))

theorem accounted_of_lookup (hr : w.requests[i]? = some r) (hs : r.stage ≠ .drawn)
    (ht : w.step pc cfg parses e = some (w', o)) (hp : w.pending.lookup r.id ≠ some i) :
    Accounted pc cfg parses i r w' o := by
  have hreg : Registered i w := ⟨r, hr, hs⟩
  refine Cared.accounted (hreg.step ht) (Or.inr (Or.inl ?_))
  intro hi
  rcases step_pending ht hi with hold | ⟨q, hq, hd, -⟩
  · exact hp hold
  · rw [hr] at hq
    cases hq
    exact hs hd

/-- After `shutdown` the loop goes from the backoff to its end. -/
theorem accounted_of_cancelled {f : Frame} {url : Text} {d : ℕ}
    (ht : w.step pc cfg parses (.loop (.cmd (.send f priority))) = some (w', o))
    (hc : w.cancelled) (hp : w.loop.phase = .backoff url d) : Accounted pc cfg parses i r w' o := by
  refine Stopping.accounted ⟨step_cancelled ht hc, Or.inl ?_⟩
  rcases step_loop_cases ht with ⟨-, -, hne⟩ | ⟨x', s', he, -, hst', hl, -⟩
  · exact absurd rfl (hne _)
  cases he
  rcases Loop.step_cmd hst' with ⟨url', m, hm⟩ | ⟨-, rfl⟩
  · rw [hp] at hm
    cases hm
  · rw [hl, if_pos (Loop.wokenBy_backoff hp _)]
    exact Loop.woken_phase _ _

end Taken

/-- A registered request that the loop takes from the channel is accounted for exactly if the loop is
online, the request has no entry any more, or the loop takes it in a backoff after `shutdown`. -/
theorem run_send_accounted_iff {priority : MessagePriority}
    (h : (machine pc cfg parses snow).run new es = some (w, tr))
    (hr : w.requests[i]? = some r) (hs : r.stage ≠ .drawn)
    (ht : w.step pc cfg parses (.loop (.cmd (.send r.frame priority))) = some (w', o)) :
    Accounted pc cfg parses i r w' o ↔ w.loop.phase.isOnline ∨ w.pending.lookup r.id ≠ some i ∨
      w.cancelled ∧ ∃ url d, w.loop.phase = .backoff url d := by
  constructor
  · intro ha
    by_contra hn
    obtain ⟨honl, hpend, hback⟩ : ¬ w.loop.phase.isOnline ∧ w.pending.lookup r.id = some i ∧
        ¬ (w.cancelled ∧ ∃ url d, w.loop.phase = .backoff url d) := by
      simpa only [not_or, not_not] using hn
    exact not_accounted_of_taken h ht honl hpend hback ha
  · rintro (hp | hp | ⟨hc, url, d, hp⟩)
    · exact accounted_of_online h ⟨r, hr, hs⟩ ht hp
    · exact accounted_of_lookup hr hs ht hp
    · exact accounted_of_cancelled ht hc hp

/-- A request of the first client, up to its command in the channel. -/
def requesting : List Event := [.request [5] .normal, .register 0, .permit 0, .enqueue 0]

theorem run_send_accounted_iff_online : ∃ w w' tr o r,
    (machine .wire .sample (fun _ => true) (Snow.ideal Ideal.genuine)).run new
        (.setEndpoint "ws://a".toList :: (Loop.goingOnline "ws://a".toList).map (fun i => .loop i.2) ++
          requesting) = some (w, tr) ∧
      w.requests[0]? = some r ∧
      w.step .wire .sample (fun _ => true) (.loop (.cmd (.send r.frame .normal))) = some (w', o) ∧
      Accounted .wire .sample (fun _ => true) 0 r w' o := by
  let M := machine .wire .sample (fun _ => true) (Snow.ideal Ideal.genuine)
  let r : Request := ⟨2, [5], .normal, .waiting 30000000000, .empty⟩
  have hrun : (M.run new (.setEndpoint "ws://a".toList ::
      (Loop.goingOnline "ws://a".toList).map (fun i => .loop i.2) ++ requesting)).any (fun x =>
        (decide (x.1.requests[0]? = some r) && x.1.loop.phase.isOnline) &&
          (x.1.step .wire .sample (fun _ => true)
            (.loop (.cmd (.send r.frame .normal)))).isSome) = true := by
    decide +kernel
  obtain ⟨⟨w, tr⟩, h, hrun⟩ := (Option.any_eq_true _ _).mp hrun
  simp only [Bool.and_eq_true, decide_eq_true_eq, Option.isSome_iff_exists] at hrun
  obtain ⟨⟨hr, hp⟩, ⟨w', o⟩, ht⟩ := hrun
  exact ⟨w, w', tr, o, r, h, hr, ht,
    (run_send_accounted_iff h hr (by decide) ht).mpr (Or.inl hp)⟩

/-- Without an endpoint the loop drops the request, whose caller goes on waiting. -/
theorem run_send_swallowed : ∃ w w' tr o r,
    (machine .wire .sample (fun _ => true) (Snow.ideal Ideal.genuine)).run new
        (requesting ++ [.loop (.cancelFlag false), .loop (.url none)]) = some (w, tr) ∧
      w.requests[0]? = some r ∧
      w.step .wire .sample (fun _ => true) (.loop (.cmd (.send r.frame .normal))) = some (w', o) ∧
      w'.loop.phase = .parked ∧ w'.queue = [] ∧ w'.requests[0]? = some r ∧
      ¬ Accounted .wire .sample (fun _ => true) 0 r w' o := by
  let M := machine .wire .sample (fun _ => true) (Snow.ideal Ideal.genuine)
  let x := M.run new (requesting ++ [.loop (.cancelFlag false), .loop (.url none)])
  have h : x = some (x.get rfl) := (Option.some_get rfl).symm
  let w := (x.get rfl).1
  let r : Request := ⟨2, [5], .normal, .waiting 30000000000, .empty⟩
  have hr : w.requests[0]? = some r := rfl
  let y := w.step .wire .sample (fun _ => true) (.loop (.cmd (.send r.frame .normal)))
  have ht : y = some (y.get rfl) := (Option.some_get rfl).symm
  refine ⟨_, _, _, _, r, h, hr, ht, rfl, rfl, rfl, ?_⟩
  intro ha
  rcases ha [] _ _ rfl rfl with hw | hp | hc
  · exact absurd hw (by decide)
  · exact hp rfl
  · cases hc

end WsClient

end NotifiTransport

import NotifiTransport.Server.ControlFrames
import NotifiTransport.Server.Conversation
import NotifiTransport.Server.Priorities

/-! # The calls of the handles

A `respond` or `push_event` that returns `Ok` has put its frame in the channel. What the session
seals, apart from its own Pings and Pongs, are the frames of these calls in the order in which
they were made, and none of them twice.
-/

namespace NotifiTransport

namespace Session

variable {snow : Snow} {pc : Postcard} {cfg : SessionConfig} {now : ℕ} {s s' : Session snow}
  {i : SessionInput} {x : Option (Fin 4 × Frame)}

/-- What the head of the loop over the scheduler seals is what it serves. -/
theorem fromQueues_sealNext (s : Session snow) :
    fromQueues (sealNext pc s.noise s.scheduler) = s.serves .proceed (s.pump pc).1 := by
  rcases s.scheduler.pop_cases with ⟨he, hp⟩ | ⟨i, f, rest, c, hq, hp⟩
  · simp [sealNext, hp, serves, WfqScheduler.served_of_isEmpty he, fromQueues]
  · rw [sealNext_of_pop s.noise hq hp]
    unfold pump
    rw [hp]
    dsimp only
    split
    · next e he =>
      rw [sealFrame_of_encode _ _ he]
      rfl
    · next encoded he =>
      split
      · next hs =>
        rw [sealFrame_of_encrypt _ he hs]
        rfl
      · next noise chunks hs =>
        have hw := sealFrame_of_ok (some i) he hs
        rcases sealFrame_cases s.noise (some i) f with h | ⟨w, h, hf, hi⟩ <;> rw [h] at hw ⊢
        · cases hw
        · have hserves : s.serves .proceed (writeChunks { s with
              scheduler := ⟨Function.update s.scheduler.queues i rest, c⟩, noise := noise }
              f chunks).1 = [(i, f)] := by
            rw [serves, WfqScheduler.served_of_pop hq hp, hp]
            cases chunks <;> rfl
          rw [hserves]
          simp [fromQueues, Sealed.queued?, hf, hi]

theorem fromQueues_seals {o : List SessionEffect}
    (h : s.step pc cfg now i = some (some s', o)) :
    fromQueues (s.seals pc i) = s.serves i s' := by
  by_cases hi : i = .proceed
  · subst hi
    have hp : s.phase = .pumping := by cases hp : s.phase <;> simp [step, hp] at h ⊢
    simp only [step, hp, Option.some.injEq, Prod.mk.injEq] at h
    rw [← h.1]
    simp only [seals, hp]
    exact fromQueues_sealNext s
  · have hserves : s.serves i s' = [] := by
      cases i <;> first | rfl | exact absurd rfl hi
    rw [hserves]
    unfold seals
    split
    · exact absurd rfl hi
    · split
      · rfl
      · exact fromQueues_sealFrame_none _ _
    · rfl

theorem seals_of_closing (hp : s.phase = .closing) : s.seals pc i = [] := by
  cases i <;> simp only [seals, hp]

/-- The frames `q` from the queues are, but for the Pongs, those of the commands that were taken to
send `sends`, in their order; the last one may still be in the scheduler. -/
def Ordered (q sends : List (Fin 4 × Frame)) (t : Option (Session snow)) : Prop :=
  q.filter isData <+: sends ∧ ∀ s, t = some s → s.phase ≠ .closing → ∃ x, s.Stocked x ∧
    q.filter isData ++ x.toList = sends

theorem step_ordered {q sends : List (Fin 4 × Frame)}
    {r : Option (Session snow) × List SessionEffect} (h : s.step pc cfg now i = some r)
    (ho : Ordered q sends (some s)) (hd : ∀ y ∈ sends, isData y) :
    Ordered (q ++ fromQueues (s.seals pc i)) (sends ++ i.sends) r.1 := by
  obtain ⟨hpre, hgo⟩ := ho
  have hmore : q.filter isData <+: sends ++ i.sends := hpre.trans (List.prefix_append _ _)
  by_cases hp : s.phase = .closing
  · rw [seals_of_closing hp, step_of_closing hp h]
    refine ⟨?_, by simp⟩
    rwa [show fromQueues ([] : List (Sealed pc)) = [] from rfl, List.append_nil]
  · obtain ⟨s', o, rfl⟩ : ∃ s' o, r = (some s', o) := by
      rcases step_cases h with ⟨_, -, -, hr⟩ | ⟨s', o, hr, -⟩ | ⟨hc, -⟩
      · exact ⟨_, _, hr⟩
      · exact ⟨s', o, hr⟩
      · exact absurd hc hp
    obtain ⟨x, hst, hx⟩ := hgo s rfl hp
    have hdata : ∀ y, x = some y → isData y := by
      rintro y rfl
      exact hd y (by rw [← hx]; simp)
    rw [fromQueues_seals h]
    rcases step_restocks hst hdata h rfl with hc | ⟨x', hst', hbal, -⟩
    · rw [Served.serves_of_closing i hc, List.append_nil]
      exact ⟨hmore, fun _ he hne => absurd (Option.some.inj he ▸ hc) hne⟩
    · have hall : (q ++ s.serves i s').filter isData ++ x'.toList = sends ++ i.sends := by
        rw [List.filter_append, List.append_assoc, hbal, ← List.append_assoc, hx]
      constructor
      · rw [← hall]
        exact List.prefix_append _ _
      · rintro _ ⟨⟩ -
        exact ⟨x', hst', hall⟩

/-- The frames of the commands that the session takes are sealed in their order. -/
theorem conversation_ordered {noise : NoiseSession snow} {is : List (ℕ × SessionInput)}
    {tr : List SessionEffect} {t : Recorded (Option (Session snow)) (Sealed pc) (Bytes × Bytes)}
    (h : (conversation pc cfg snow).recorded.run (.fresh (some (start cfg now noise))) is =
      some (t, tr)) (hd : ∀ y ∈ is.flatMap (·.2.sends), isData y) :
    Ordered (fromQueues t.sealed) (is.flatMap (·.2.sends)) t.state := by
  refine Mealy.run_induction (P := fun is _ t => (∀ y ∈ is.flatMap (·.2.sends), isData y) →
    Ordered (fromQueues t.sealed) (is.flatMap (·.2.sends)) t.state) ?_ ?_ h hd
  · refine fun _ => ⟨List.prefix_refl _, ?_⟩
    rintro _ ⟨⟩ -
    exact ⟨none, stocked_start noise, rfl⟩
  · rintro is tr m j t o - ih hs hd
    rw [List.flatMap_append] at hd ⊢
    have hdata : ∀ y ∈ is.flatMap (·.2.sends), isData y :=
      fun y hy => hd y (List.mem_append_left _ hy)
    have ho := ih hdata
    obtain ⟨hst, hsealed, -⟩ := Endpoint.recorded_step.mp hs
    obtain ⟨s, r, hm, hr, hs', -⟩ := machine_step.mp hst
    rw [hsealed, fromQueues_append, hs']
    rw [hm] at ho ⊢
    exact (congrArg (Ordered _ · _) (by simp)).mp (step_ordered hr ho hdata)

theorem pingsOnly_seals (s : Session snow) (i : SessionInput) : PingsOnly (s.seals pc i) := by
  unfold seals
  split
  · exact pingsOnly_sealNext _ _
  · split
    · exact List.forall_mem_nil _
    · exact pingsOnly_sealFrame _
  · exact List.forall_mem_nil _

theorem conversation_pingsOnly {u t : Recorded (Option (Session snow)) (Sealed pc) (Bytes × Bytes)}
    {is : List (ℕ × SessionInput)} {tr : List SessionEffect}
    (h : (conversation pc cfg snow).recorded.run u is = some (t, tr)) (hu : PingsOnly u.sealed) :
    PingsOnly t.sealed := by
  refine Mealy.run_invariant (P := fun t => PingsOnly t.sealed) ?_ h hu
  intro m x t o hm hs
  obtain ⟨hst, hsealed, -⟩ := Endpoint.recorded_step.mp hs
  obtain ⟨s, r, hsome, -⟩ := machine_step.mp hst
  rw [hsealed, hsome]
  exact pingsOnly_append.mpr ⟨hm, pingsOnly_seals s x.2⟩

theorem delivered_handle_eq (s : Session snow) (f : Frame) :
    delivered (s.handle f).2 = dataFrames (handled (s.handle f).2) := by
  rcases hk : f.kind <;>
    simp [handle, hk, delivered, List.filterMap_cons, SessionEffect.deliver?, handled,
      SessionEffect.handled?, dataFrames, Frame.isKeepalive]

/-- What a step puts in the inbox are the messages and events that it handles. -/
theorem step_delivered_eq {r : Option (Session snow) × List SessionEffect}
    (h : s.step pc cfg now i = some r) : delivered r.2 = dataFrames (handled r.2) := by
  by_cases hi : ∀ data, s.phase = .select → i ≠ .next (some (.ok (.binary data)))
  · rw [delivered_other h hi]
    rcases step_cases h with ⟨data, hp, rfl, -⟩ | ⟨s', o, rfl, -, ho, -⟩ | ⟨-, rfl⟩
    · exact absurd rfl (hi data hp)
    · rw [show handled (some s', o).2 = [] from ho]
      rfl
    · rfl
  · push Not at hi
    obtain ⟨data, hp, rfl⟩ := hi
    simp only [step, hp, Option.some.injEq] at h
    subst h
    dsimp only
    unfold onPacket
    split
    · rfl
    · next f _ =>
      rcases f with _ | f
      · rfl
      · exact delivered_handle_eq _ f

theorem run_delivered {t t' : Option (Session snow)} {is : List (ℕ × SessionInput)}
    {tr : List SessionEffect} (h : (machine pc cfg snow).run t is = some (t', tr)) :
    delivered tr = dataFrames (handled tr) := by
  refine Mealy.run_induction (P := fun _ tr _ => delivered tr = dataFrames (handled tr)) rfl ?_ h
  rintro is tr m x t o - ih hs
  obtain ⟨s, r, -, hr, -, rfl⟩ := machine_step.mp hs
  rw [delivered, List.filterMap_append, handled_append, dataFrames_append, ← ih]
  exact congrArg _ (step_delivered_eq hr)

end Session

def ServedEffect.session? : ServedEffect → Option SessionEffect
  | .session e => some e
  | .returned _ => none

namespace Served

variable {snow : Snow}

/-- The session with its handles as an endpoint. -/
def conversation (pc : Postcard) (cfg : WsServerConfig) (snow : Snow) :
    Endpoint (Served snow) ServedInput ServedEffect (Sealed pc) (Bytes × Bytes) where
  toMealy := machine pc cfg snow
  seals p i := i.loop?.elim [] ((Session.conversation pc cfg.session snow).seals p.session)
  opens p i := i.loop?.elim [] ((Session.conversation pc cfg.session snow).opens p.session)

/-- The command that a call puts in the channel. -/
def accepts (cfg : WsServerConfig) (p : Served snow) (i : ServedInput) (_ : Served snow) :
    List SessionCmd :=
  let offered : Option SessionCmd :=
    match i with
    | .respond id data => some (.send ⟨id, .message, data⟩ .normal)
    | .pushEvent data priority => some (.send ⟨0, .event, data⟩ priority)
    | .close | .offer _ => some .close
    | _ => none
  offered.toList.filter fun c => (p.trySend cfg c).2 = .ok ()

variable {pc : Postcard} {cfg : WsServerConfig} {p p' : Served snow} {i : ServedInput}
  {is : List ServedInput} {o tr : List ServedEffect} {calls : List SessionCmd}

theorem trySend_accepted (p : Served snow) (cfg : WsServerConfig) (c : SessionCmd) :
    (p.trySend cfg c).1.queue =
      p.queue ++ [c].filter fun c => (p.trySend cfg c).2 = .ok () := by
  unfold trySend
  split
  · simp
  · split <;> simp

/-- Outside the loop the channel grows by the commands accepted. -/
theorem step_accepts (h : p.step pc cfg i = some (p', o)) (hi : i.loop? = none) :
    p'.session = p.session ∧ p'.queue = p.queue ++ p.accepts cfg i p' ∧
      o.filterMap ServedEffect.session? = [] := by
  cases i with
  | loop now j => cases hi
  | respond | pushEvent | close =>
    simp only [step, Option.ite_none_left_eq_some, Option.some.injEq, Prod.mk.injEq] at h
    obtain ⟨-, rfl, rfl⟩ := h
    exact ⟨p.trySend_session cfg _, p.trySend_accepted cfg _, rfl⟩
  | clone | test =>
    simp only [step, Option.ite_none_left_eq_some, Option.some.injEq, Prod.mk.injEq] at h
    obtain ⟨-, rfl, rfl⟩ := h
    exact ⟨rfl, (List.append_nil _).symm, rfl⟩
  | offer k =>
    simp only [step, Option.ite_none_right_eq_some, Option.some.injEq, Prod.mk.injEq] at h
    obtain ⟨-, rfl, rfl⟩ := h
    exact ⟨p.trySend_session cfg _, p.trySend_accepted cfg _, rfl⟩
  | release k =>
    simp only [step, Option.ite_none_right_eq_some, Option.some.injEq, Prod.mk.injEq] at h
    obtain ⟨-, rfl, rfl⟩ := h
    exact ⟨rfl, (List.append_nil _).symm, rfl⟩

/-- The commands accepted are those taken and those in the channel; when the session has returned
the latter are gone. -/
def Channelled (taken calls : List SessionCmd) (p : Served snow) : Prop :=
  taken <+: calls ∧ (p.session.isSome → calls = taken ++ p.queue)

theorem run_channelled {noise : NoiseSession snow} {now : ℕ}
    (h : ((machine pc cfg snow).watch (accepts cfg)).run (start cfg now noise) is =
      some (p, calls)) : Channelled (takenBy is) calls p := by
  refine Mealy.run_induction (P := fun is calls p => Channelled (takenBy is) calls p)
    ⟨List.prefix_refl _, fun _ => rfl⟩ ?_ h
  rintro is calls p i p' _ - ⟨hpre, hq⟩ hs
  obtain ⟨o, hst, rfl⟩ := Mealy.step_watch.mp hs
  rw [takenBy_concat]
  rcases hi : i.loop? with _ | ⟨now, j⟩
  · obtain ⟨hsession, hqueue, -⟩ := step_accepts hst hi
    rw [Option.elim_none, List.append_nil, Channelled, hsession, hqueue]
    exact ⟨hpre.trans (List.prefix_append _ _), fun he => by rw [hq he, List.append_assoc]⟩
  · obtain rfl : i = .loop now j := by cases i <;> cases hi; rfl
    obtain ⟨queue, r, hrec, hr, rfl, -⟩ := loop_eq_some hst
    obtain ⟨s, r', hsome, -⟩ := Session.machine_step.mp hr
    have hcalls : calls = takenBy is ++ j.taken ++ queue := by
      rw [hq (by rw [hsome]; rfl), received_taken hrec, List.append_assoc]
    rw [show p.accepts cfg (.loop now j) _ = [] from rfl, List.append_nil, hcalls]
    exact ⟨List.prefix_append _ _, fun he => by simp only [if_pos he]; rfl⟩

theorem step_simulates {u v : Recorded (Served snow) (Sealed pc) (Bytes × Bytes)}
    (h : (conversation pc cfg snow).recorded.step u i = some (v, o)) :
    (Session.conversation pc cfg.session snow).recorded.run ⟨u.state.session, u.sealed, u.opened⟩
        i.loop?.toList =
      some (⟨v.state.session, v.sealed, v.opened⟩, o.filterMap ServedEffect.session?) := by
  obtain ⟨hst, hsealed, hopened⟩ := Endpoint.recorded_step.mp h
  rcases hi : i.loop? with _ | ⟨now, j⟩
  · obtain ⟨hsession, -, ho⟩ := step_accepts hst hi
    rw [hsealed, hopened, hsession, ho]
    simp [conversation, hi, Mealy.run]
  · obtain rfl : i = .loop now j := by cases i <;> cases hi; rfl
    obtain ⟨queue, -, hst⟩ := Option.bind_eq_some_iff.mp hst
    obtain ⟨r, hr, hv⟩ := Option.map_eq_some_iff.mp hst
    obtain ⟨hstate, rfl⟩ := Prod.mk.inj hv
    have hr' : (Session.machine pc cfg.session snow).step u.state.session (now, j) =
        some (v.state.session, r.2) := by rw [hr, ← hstate]
    refine Mealy.run_cons.mpr ⟨⟨v.state.session, v.sealed, v.opened⟩, r.2, [],
      Endpoint.recorded_step.mpr ⟨hr', hsealed, hopened⟩, rfl, ?_⟩
    simp [ServedEffect.session?, List.filterMap_map, Function.comp_def]

/-- The handles do not show on the connection. -/
theorem conversation_simulates {u v : Recorded (Served snow) (Sealed pc) (Bytes × Bytes)}
    (h : (conversation pc cfg snow).recorded.run u is = some (v, tr)) :
    (Session.conversation pc cfg.session snow).recorded.run ⟨u.state.session, u.sealed, u.opened⟩
        (is.filterMap ServedInput.loop?) =
      some (⟨v.state.session, v.sealed, v.opened⟩, tr.filterMap ServedEffect.session?) := by
  obtain ⟨js, hj, hr⟩ := Endpoint.recorded_simulation Served.session ServedEffect.session? id
    (fun i => i.loop?.toList) (fun u i v o hs => ⟨_, List.map_id _, step_simulates hs⟩) h
  rw [List.map_id] at hj
  rw [List.filterMap_eq_flatMap_toList, ← hj]
  exact hr

/-- What has been delivered are the first of the messages and events whose packets have been
opened. -/
theorem conversation_delivered {noise : NoiseSession snow} {now : ℕ}
    {t : Recorded (Served snow) (Sealed pc) (Bytes × Bytes)} {ws : List (Sealed pc)}
    (hpc : pc.Lawful)
    (h : (conversation pc cfg snow).recorded.run (.fresh (start cfg now noise)) is = some (t, tr))
    (hb : PayloadsBelow pc (2 ^ 32) (ws.map (·.frame)))
    (ho : t.opened <+: ws.flatMap Sealed.packets) :
    delivered (tr.filterMap ServedEffect.session?) <+: dataFrames (ws.map (·.frame)) := by
  have hsim := conversation_simulates h
  rw [Session.run_delivered (Endpoint.recorded_run hsim)]
  exact ((Session.conversation_heard hsim).le hpc hb ho).filter _

/-- The loop waits in its `select!`, and there is no command in the channel. -/
def idle (p : Served snow) : Bool :=
  p.queue.isEmpty && p.session.any fun s => decide (s.phase = .select)

theorem idle_iff {p : Served snow} : p.idle ↔
    p.queue = [] ∧ ∃ s, p.session = some s ∧ s.phase = .select := by
  simp only [idle, Bool.and_eq_true, List.isEmpty_iff, Option.any_eq_true_iff_get,
    decide_eq_true_eq]
  constructor
  · rintro ⟨hq, hs, hp⟩
    exact ⟨hq, _, (Option.some_get hs).symm, hp⟩
  · rintro ⟨hq, s, hs, hp⟩
    exact ⟨hq, by simp [hs, hp]⟩

/-- The handles queue responses, events and `Close` only. -/
theorem accepts_cases {c : SessionCmd} (hc : c ∈ p.accepts cfg i p') :
    (∃ id data, i = .respond id data ∧ c = .send ⟨id, .message, data⟩ .normal) ∨
      (∃ data priority, i = .pushEvent data priority ∧ c = .send ⟨0, .event, data⟩ priority) ∨
      c = .close := by
  have hoff := List.mem_of_mem_filter hc
  cases i <;> simp only [Option.toList_none, Option.toList_some, List.mem_singleton,
    List.not_mem_nil] at hoff <;> subst hoff
  case respond id data => exact Or.inl ⟨id, data, rfl, rfl⟩
  case pushEvent data priority => exact Or.inr (Or.inl ⟨data, priority, rfl, rfl⟩)
  all_goals exact Or.inr (Or.inr rfl)

theorem accepts_data {c : SessionCmd} (hc : c ∈ p.accepts cfg i p') :
    ∀ x, c.send? = some x → ! x.2.isKeepalive := by
  rintro x hx
  rcases accepts_cases hc with ⟨id, data, -, rfl⟩ | ⟨data, priority, -, rfl⟩ | rfl <;> cases hx <;>
    rfl

/-- The frames of the commands. -/
def callFrames (calls : List SessionCmd) : List Frame :=
  (calls.filterMap SessionCmd.send?).map Prod.snd

/-- A message in the channel comes from `respond`. -/
theorem run_accepts_respond {p₀ : Served snow}
    (h : ((machine pc cfg snow).watch (accepts cfg)).run p₀ is = some (p, calls)) {id : UInt32}
    {data : Bytes} (hf : (⟨id, .message, data⟩ : Frame) ∈ callFrames calls) :
    .send ⟨id, .message, data⟩ .normal ∈ calls ∧ .respond id data ∈ is := by
  obtain ⟨x, hx, hframe⟩ := List.mem_map.mp hf
  obtain ⟨c, hc, hcx⟩ := List.mem_filterMap.mp hx
  obtain ⟨u, v, rfl⟩ := List.append_of_mem hc
  obtain ⟨pre, i, post, m, tr, m', o₁, o₂, rfl, -, hs, -⟩ := Mealy.run_split h
  obtain ⟨_, -, ho⟩ := Mealy.step_watch.mp hs
  have hacc : c ∈ m.accepts cfg i m' := ho ▸ List.mem_append_right _ List.mem_cons_self
  rcases accepts_cases hacc with ⟨id', data', rfl, rfl⟩ | ⟨data', priority, -, rfl⟩ | rfl <;>
    cases hcx <;> cases hframe
  exact ⟨hc, by simp⟩

theorem run_accepts_data {p₀ : Served snow}
    (h : ((machine pc cfg snow).watch (accepts cfg)).run p₀ is = some (p, calls)) :
    ∀ c ∈ calls, ∀ x, c.send? = some x → ! x.2.isKeepalive := by
  intro c hc
  obtain ⟨m, i, m', o, hs, ho⟩ := Mealy.run_output h hc
  obtain ⟨_, -, rfl⟩ := Mealy.step_watch.mp hs
  exact accepts_data ho

theorem isData_of_data {x : Fin 4 × Frame} (h : ! x.2.isKeepalive) : isData x := by
  cases hk : x.2.kind <;> simp [Frame.isKeepalive, isData, hk] at h ⊢

section Conversation

variable {noise : NoiseSession snow} {now : ℕ}
  {t : Recorded (Served snow) (Sealed pc) (Bytes × Bytes)}

theorem conversation_ordered
    (h : (conversation pc cfg snow).recorded.run (.fresh (start cfg now noise)) is = some (t, tr))
    (hw : ((machine pc cfg snow).watch (accepts cfg)).run (start cfg now noise) is =
      some (p, calls)) :
    Session.Ordered (fromQueues t.sealed) ((takenBy is).filterMap SessionCmd.send?)
      t.state.session := by
  obtain ⟨hpre, -⟩ := run_channelled hw
  have hsends : (is.filterMap ServedInput.loop?).flatMap (·.2.sends) =
      (takenBy is).filterMap SessionCmd.send? := by
    rw [takenBy, List.filterMap_flatMap]
    rfl
  have hsim := conversation_simulates h
  rw [show (Recorded.fresh (start cfg now noise)).state.session =
    some (.start cfg.session now noise) from rfl] at hsim
  rw [← hsends]
  refine Session.conversation_ordered hsim ?_
  rw [hsends]
  intro y hy
  obtain ⟨c, hc, hcy⟩ := List.mem_filterMap.mp hy
  exact isData_of_data (run_accepts_data hw c (hpre.subset hc) y hcy)

/-- What the session seals but for its own Pings and Pongs is, in their order, the first of what the
calls have put in the channel. -/
theorem conversation_calls
    (h : (conversation pc cfg snow).recorded.run (.fresh (start cfg now noise)) is = some (t, tr))
    (hw : ((machine pc cfg snow).watch (accepts cfg)).run (start cfg now noise) is =
      some (p, calls)) :
    (fromQueues t.sealed).filter isData <+: calls.filterMap SessionCmd.send? :=
  (conversation_ordered h hw).1.trans ((run_channelled hw).1.filterMap _)

/-- When the loop waits and the channel is empty, it is all of it. -/
theorem conversation_calls_all
    (h : (conversation pc cfg snow).recorded.run (.fresh (start cfg now noise)) is = some (t, tr))
    (hw : ((machine pc cfg snow).watch (accepts cfg)).run (start cfg now noise) is =
      some (p, calls)) (hidle : p.idle) :
    (fromQueues t.sealed).filter isData = calls.filterMap SessionCmd.send? := by
  obtain ⟨hq, s, hs, hp⟩ := idle_iff.mp hidle
  obtain rfl : p = t.state := Mealy.run_watch_state (Endpoint.recorded_run h) hw
  have hcalls : calls = takenBy is := by
    rw [(run_channelled hw).2 (by rw [hs]; rfl), hq, List.append_nil]
  obtain ⟨x, ⟨-, hx⟩, heq⟩ :=
    (conversation_ordered h hw).2 s hs (by rw [hp]; exact SessionPhase.noConfusion)
  simp only [hp] at hx
  rw [hcalls, ← heq, hx]
  exact (List.append_nil _).symm

/-- The messages and events that are sealed are those from the queues. -/
theorem dataFrames_conversation
    (h : (conversation pc cfg snow).recorded.run (.fresh (start cfg now noise)) is =
      some (t, tr)) :
    dataFrames (t.sealed.map (·.frame)) =
      dataFrames (((fromQueues t.sealed).filter isData).map Prod.snd) := by
  have hpings : PingsOnly t.sealed :=
    Session.conversation_pingsOnly (conversation_simulates h) (List.forall_mem_nil _)
  rw [dataFrames_sealed hpings, dataFrames, dataFrames, List.filter_map, List.filter_map,
    List.filter_filter]
  congr 1
  apply List.filter_congr
  intro x _
  cases hk : x.2.kind <;> simp [Frame.isKeepalive, isData, hk]

theorem dataFrames_callFrames {p₀ : Served snow}
    (hw : ((machine pc cfg snow).watch (accepts cfg)).run p₀ is = some (p, calls)) :
    dataFrames (callFrames calls) = callFrames calls := by
  apply List.filter_eq_self.mpr
  intro f hf
  obtain ⟨x, hx, rfl⟩ := List.mem_map.mp hf
  obtain ⟨c, hc, hcx⟩ := List.mem_filterMap.mp hx
  exact run_accepts_data hw c hc x hcx

/-- The messages and events that the session seals are the first of those that the calls have put
in the channel. -/
theorem conversation_frames
    (h : (conversation pc cfg snow).recorded.run (.fresh (start cfg now noise)) is = some (t, tr))
    (hw : ((machine pc cfg snow).watch (accepts cfg)).run (start cfg now noise) is =
      some (p, calls)) :
    dataFrames (t.sealed.map (·.frame)) <+: callFrames calls := by
  rw [dataFrames_conversation h, ← dataFrames_callFrames hw]
  exact ((conversation_calls h hw).map Prod.snd).filter _

theorem conversation_frames_all
    (h : (conversation pc cfg snow).recorded.run (.fresh (start cfg now noise)) is = some (t, tr))
    (hw : ((machine pc cfg snow).watch (accepts cfg)).run (start cfg now noise) is =
      some (p, calls)) (hidle : p.idle) :
    dataFrames (t.sealed.map (·.frame)) = callFrames calls := by
  rw [dataFrames_conversation h, ← dataFrames_callFrames hw, conversation_calls_all h hw hidle]
  rfl

end Conversation

end Served

end NotifiTransport

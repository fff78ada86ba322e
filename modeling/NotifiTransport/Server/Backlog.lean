import NotifiTransport.Server.Calls
import NotifiTransport.Server.Drain

/-! # The backlog of a server session

How long a `RealTime` frame waits behind commands of lower priority. Frames are counted when they
are written, each with the queue that it was taken from. While the frame is not written no more
frames of lower priority are than wait ahead of it, and the session comes to it by steps of its own.
-/

namespace NotifiTransport

/-- The frames that are written. -/
def written (o : List ServedEffect) : List Frame :=
  (o.filterMap ServedEffect.session?).filterMap SessionEffect.wrote?

namespace Session

variable {snow : Snow} {pc : Postcard} {cfg : SessionConfig} {now : ℕ} {s s' : Session snow}
  {i : SessionInput} {f : Frame}

/-- The frame that is being written. -/
def writing? (s : Session snow) : Option Frame :=
  match s.phase with
  | .writing f _ => some f
  | _ => none

/-- What a step does to the frame that is being written: it ends the session, or it takes no frame
from the scheduler, or it takes one while none is being written. -/
def Rewrites (s : Session snow) (i : SessionInput) (s' : Session snow) (o : List SessionEffect) :
    Prop :=
  s'.phase = .closing ∧ o.filterMap SessionEffect.wrote? = [] ∨
  s.serves i s' = [] ∧
    s.writing?.toList = o.filterMap SessionEffect.wrote? ++ s'.writing?.toList ∨
  s.writing? = none ∧ ∃ x, s.serves i s' = [x] ∧
    [x.2] = o.filterMap SessionEffect.wrote? ++ s'.writing?.toList

theorem rewrites_finish (s s' : Session snow) : Rewrites s i s'.finish.1 s'.finish.2 :=
  Or.inl ⟨rfl, rfl⟩

theorem rewrites_quiet {o : List SessionEffect} (hi : i ≠ .proceed) (hs : s.writing? = none)
    (hs' : s'.writing? = none) (ho : o.filterMap SessionEffect.wrote? = []) :
    Rewrites s i s' o := by
  refine Or.inr (Or.inl ⟨?_, by rw [hs, hs', ho]; rfl⟩)
  cases i <;> first | rfl | exact absurd rfl hi

theorem written_writeChunks (s : Session snow) (f : Frame) (cs : List Bytes) :
    [f] = (s.writeChunks f cs).2.filterMap SessionEffect.wrote? ++
      (s.writeChunks f cs).1.writing?.toList := by
  cases cs <;> rfl

theorem writeChunks_ne_closing (s : Session snow) (f : Frame) (cs : List Bytes) :
    (s.writeChunks f cs).1.phase ≠ .closing := by
  cases cs <;> exact nofun

theorem rewrites_pingChunks (hi : i ≠ .proceed) (hs : s.writing? = none)
    (s' : Session snow) (cs : List Bytes) :
    Rewrites s i (s'.pingChunks cfg now cs).1 (s'.pingChunks cfg now cs).2 := by
  cases cs <;> exact rewrites_quiet hi hs rfl rfl

theorem rewrites_onPacket (hp : s.phase = .select) (data : Bytes) :
    Rewrites s (.next (some (.ok (.binary data)))) (s.onPacket pc cfg now data).1
      (s.onPacket pc cfg now data).2 := by
  have hs : s.writing? = none := by simp [writing?, hp]
  unfold onPacket
  split
  · exact rewrites_finish s s
  · next f _ =>
    rcases f with _ | f
    · exact rewrites_quiet nofun hs hs rfl
    · dsimp only [handle]
      split <;> exact rewrites_quiet nofun hs (by simp [writing?, hp]) rfl

theorem rewrites_onHeartbeat (hp : s.phase = .select) :
    Rewrites s .elapsed (s.onHeartbeat pc cfg now).1 (s.onHeartbeat pc cfg now).2 := by
  have hs : s.writing? = none := by simp [writing?, hp]
  rcases s.onHeartbeat_cases pc cfg now with h | h | ⟨_, noise, _, -, h | ⟨chunks, h⟩⟩ <;> rw [h]
  · exact rewrites_finish s s
  · exact rewrites_quiet nofun hs rfl rfl
  · exact rewrites_quiet nofun hs rfl rfl
  · exact rewrites_pingChunks (i := .elapsed) nofun hs _ chunks

theorem rewrites_pump (hp : s.phase = .pumping) :
    Rewrites s .proceed (s.pump pc).1 (s.pump pc).2 := by
  have hs : s.writing? = none := by simp [writing?, hp]
  rcases s.pump_cases pc with
    ⟨scheduler, hpop, h⟩ | ⟨s', h⟩ | ⟨f, scheduler, _, noise, chunks, hpop, -, h⟩ <;> rw [h]
  · exact Or.inr (Or.inl ⟨by simp [serves, hpop], by rw [hs]; rfl⟩)
  · exact rewrites_finish s s'
  · refine Or.inr (Or.inr ⟨hs, ?_⟩)
    rcases s.scheduler.pop_cases with ⟨-, hp'⟩ | ⟨k, y, rest, c, hq, hp'⟩
    · rw [hp'] at hpop
      cases hpop
    · refine ⟨(k, f), ?_, written_writeChunks _ f chunks⟩
      have hk := WfqScheduler.served_of_pop hq hp'
      simp [serves, writeChunks_ne_closing, hk, hpop]

theorem step_rewrites {r : Option (Session snow) × List SessionEffect}
    (h : s.step pc cfg now i = some r) (hr : r.1 = some s') : Rewrites s i s' r.2 := by
  unfold step at h
  split at h <;> cases h <;> cases hr
  · next hp => exact rewrites_onPacket hp _
  · exact rewrites_finish s s
  · next c hp =>
    cases c with
    | send frame priority => exact rewrites_quiet nofun (by simp [writing?, hp]) rfl rfl
    | close => exact rewrites_finish s s
  · next hp => exact rewrites_onHeartbeat hp
  · next hp => exact rewrites_quiet nofun (by simp [writing?, hp]) rfl rfl
  · exact rewrites_finish s s
  · next hp => exact rewrites_pump hp
  · next f rest hp =>
    refine Or.inr (Or.inl ⟨rfl, ?_⟩)
    rw [← written_writeChunks]
    simp [writing?, hp]
  · exact rewrites_finish s s
  · next hp => exact rewrites_pingChunks (i := .sent (.ok ())) nofun (by simp [writing?, hp]) s _
  · next hp => exact rewrites_quiet nofun (by simp [writing?, hp]) rfl rfl

end Session

namespace Served

variable {snow : Snow} {pc : Postcard} {cfg : WsServerConfig} {p p' : Served snow}
  {i : ServedInput} {ks : List ServedInput} {q q' : Fin 4} {v : List (Fin 4 × Frame)}

/-- The session with the queue that it took a frame from last. Its outputs are the frames that are
written, each with its queue. -/
def writer (pc : Postcard) (cfg : WsServerConfig) (snow : Snow) :
    Mealy (Served snow × Fin 4) ServedInput (Fin 4 × Frame) where
  step s i := ((machine pc cfg snow).step s.1 i).map fun r =>
    let q := ((servings s.1 i r.1).getLast?.map Prod.fst).getD s.2
    ((r.1, q), (written r.2).map (q, ·))

/-- The frame that is being written, with its queue. -/
def flying (p : Served snow) (q : Fin 4) : List (Fin 4 × Frame) :=
  (p.session.bind Session.writing?).toList.map (q, ·)

theorem writer_step {p : Served snow} : (writer pc cfg snow).step (p, q) i = some ((p', q'), v) ↔
    ∃ o, (machine pc cfg snow).step p i = some (p', o) ∧
      q' = ((servings p i p').getLast?.map Prod.fst).getD q ∧
      v = (written o).map (q', ·) := by
  simp only [writer, Option.map_eq_some_iff, Prod.exists, Prod.mk.injEq]
  constructor
  · rintro ⟨p', o, hs, ⟨rfl, rfl⟩, rfl⟩
    exact ⟨o, hs, rfl, rfl⟩
  · rintro ⟨o, hs, rfl, rfl⟩
    exact ⟨p', o, hs, ⟨rfl, rfl⟩, rfl⟩

theorem writer_run (h : (writer pc cfg snow).run (p, q) ks = some ((p', q'), v)) :
    ∃ o, (machine pc cfg snow).run p ks = some (p', o) := by
  refine Mealy.run_induction (P := fun ks _ n => ∃ o,
    (machine pc cfg snow).run p ks = some (n.1, o)) ⟨[], rfl⟩ ?_ h
  rintro ks _ ⟨m, k⟩ i ⟨m', k'⟩ _ - ⟨u, hr⟩ hs
  obtain ⟨o, hst, -, -⟩ := writer_step.mp hs
  exact ⟨_, Mealy.run_concat.mpr ⟨m, u, o, hr, hst, rfl⟩⟩

theorem written_session (o : List SessionEffect) :
    written (o.map .session) = o.filterMap SessionEffect.wrote? := by
  simp [written, ServedEffect.session?, List.filterMap_map, Function.comp_def]

/-- A frame that the session has taken is written, or it is being written, while the session goes
on. -/
theorem step_flying (hs : (writer pc cfg snow).step (p, q) i = some ((p', q'), v)) :
    v = [] ∧ servings p i p' = [] ∧ p'.ended ∨
      p.ended = false ∧ p.flying q ++ servings p i p' = v ++ p'.flying q' := by
  obtain ⟨o, hst, hq, rfl⟩ := writer_step.mp hs
  rcases hi : i.loop? with _ | ⟨now, j⟩
  · obtain ⟨hsession, -, ho⟩ := step_accepts hst hi
    have hserv : servings p i p' = [] := by cases i <;> first | rfl | cases hi
    rw [hserv] at hq ⊢
    obtain rfl : q' = q := hq
    cases he : p.ended
    · simp [flying, hsession, written, ho]
    · simp [written, ho, step_ended hst he]
  · obtain rfl : i = .loop now j := by cases i <;> cases hi; rfl
    obtain ⟨queue, r, -, hr, rfl, rfl⟩ := loop_eq_some hst
    obtain ⟨s, r', hsome, hsess, hr1, hr2⟩ := Session.machine_step.mp hr
    have hout : written (r.2.map .session) = r'.2.filterMap SessionEffect.wrote? := by
      rw [written_session, hr2]
      rfl
    rw [hout]
    rcases hr' : r.1 with _ | s'
    · left
      simp [(Session.step_none hsess (hr1 ▸ hr')).2, servings, ended]
    · have hserv : ∀ queue, servings p (.loop now j)
          { p with session := some s', queue := queue } = s.serves j s' := by
        simp [servings, hsome]
      rw [hr'] at hq
      simp only [Option.isSome_some, if_true, hserv] at hq ⊢
      have hlive : p.ended = false := by
        simp only [ended, hsome, decide_eq_false_iff_not]
        intro hp
        rw [Session.step_of_closing hp hsess, hr'] at hr1
        cases hr1
      rcases Session.step_rewrites hsess (hr1 ▸ hr') with ⟨hp, ho⟩ | ⟨hx, ho⟩ | ⟨hw, x, hx, ho⟩
      · left
        simp [ho, serves_of_closing j hp, ended, hp]
      · refine Or.inr ⟨hlive, ?_⟩
        rw [hx] at hq ⊢
        obtain rfl : q' = q := hq
        simpa [flying, hsome] using congrArg (List.map (q', ·)) ho
      · refine Or.inr ⟨hlive, ?_⟩
        rw [hx] at hq ⊢
        obtain rfl : q' = x.1 := hq
        simpa [flying, hsome, hw] using congrArg (List.map (x.1, ·)) ho

/-- The frames written are those taken from the scheduler, up to the one that is being written. -/
theorem run_flying (h : (writer pc cfg snow).run (p, q) ks = some ((p', q'), v))
    (hp : p.flying q = []) :
    ∃ tr, ((machine pc cfg snow).watch servings).run p ks = some (p', tr) ∧ v <+: tr ∧
      (p'.ended = false → tr = v ++ p'.flying q') := by
  refine Mealy.run_induction (P := fun ks v n => ∃ tr,
    ((machine pc cfg snow).watch servings).run p ks = some (n.1, tr) ∧ v <+: tr ∧
      (n.1.ended = false → tr = v ++ n.1.flying n.2)) ⟨[], rfl, List.prefix_refl _, ?_⟩ ?_ h
  · intro _
    rw [hp]
    rfl
  · rintro ks v ⟨m, k⟩ i ⟨m', k'⟩ w - ⟨tr, hr, hpre, hlive⟩ hs
    obtain ⟨o, hst, -, -⟩ := writer_step.mp hs
    have hr' := Mealy.run_concat.mpr ⟨m, tr, _, hr, Mealy.step_watch.mpr ⟨o, hst, rfl⟩, rfl⟩
    refine ⟨_, hr', ?_⟩
    rcases step_flying hs with ⟨rfl, hserv, he⟩ | ⟨he, hf⟩
    · rw [hserv, List.append_nil, List.append_nil]
      exact ⟨hpre, fun hl => by simp [he] at hl⟩
    · rw [hlive he, List.append_assoc, hf, ← List.append_assoc]
      exact ⟨List.prefix_append _ _, fun _ => rfl⟩

end Served

/-- Postcard encodes every frame, and snow encrypts every message of a length that it allows. That
the numbers of the messages run out, after 2^64 of them, is left out. -/
structure Speaks (pc : Postcard) (snow : Snow) : Prop where
  encode : ∀ f, ∃ b, encodeFrame pc f = .ok b
  write : ∀ (t : snow.Transport) (m : Bytes), m.length ≤ maxChunkPlain →
    ∃ r, snow.writeTransport t m (m.length + 16) = .ok r

namespace NoiseSession

variable {snow : Snow} {pc : Postcard} {noise noise' : NoiseSession snow}

theorem isFinished_iff : noise.isFinished ↔ ∃ t, noise = ⟨some (.transport t)⟩ := by
  rcases noise with ⟨_ | _ | t⟩ <;> simp [isFinished]

theorem isFinished_receive {acc : FrameAccumulator} {data : Bytes} {n : ℕ}
    {r : FrameAccumulator × Option Frame} (hn : noise.isFinished)
    (h : receive pc noise acc data n = .ok (noise', r)) : noise'.isFinished := by
  obtain ⟨t, rfl⟩ := isFinished_iff.mp hn
  unfold receive at h
  split at h
  · cases h
  · next m b hr =>
    obtain ⟨t', -, hm⟩ := readMessage_transport_ok hr
    cases ha : absorb pc acc b n with
    | error => rw [ha] at h; cases h
    | ok r' =>
      rw [ha] at h
      cases h
      exact isFinished_iff.mpr ⟨t', by rw [← hm]⟩

theorem encryptPieces_ok (hw : Speaks pc snow) (hn : noise.isFinished) {ms : List Bytes}
    (hm : ∀ m ∈ ms, m.length ≤ maxChunkPlain) :
    ∃ noise' cs, noise.encryptPieces ms = (noise', .ok cs) ∧ noise'.isFinished := by
  induction ms generalizing noise with
  | nil => exact ⟨noise, [], rfl, hn⟩
  | cons m ms ih =>
    obtain ⟨t, rfl⟩ := isFinished_iff.mp hn
    obtain ⟨⟨c, t'⟩, hc⟩ := hw.write t m (hm m List.mem_cons_self)
    have hn' : isFinished (⟨some (.transport t')⟩ : NoiseSession snow) := rfl
    obtain ⟨noise', cs, hcs, hn'⟩ := ih hn' fun k hk => hm k (List.mem_cons_of_mem _ hk)
    exact ⟨noise', c :: cs, by simp [encryptPieces, writeMessage, hc, hcs], hn'⟩

theorem encryptChunked_ok (hw : Speaks pc snow) (hn : noise.isFinished) (payload : Bytes) :
    ∃ noise' cs, noise.encryptChunked payload = (noise', .ok cs) ∧ noise'.isFinished :=
  encryptPieces_ok hw hn fun _ hm => length_le_of_mem_pieces (by decide) hm

end NoiseSession

namespace Session

variable {snow : Snow} {pc : Postcard} {cfg : SessionConfig} {now : ℕ} {s s' : Session snow}
  {i : SessionInput}

/-- The session is over, or it can encrypt what it wants to send. -/
def Fit (s : Session snow) : Prop := s.phase = .closing ∨ s.noise.isFinished

theorem Fit.isFinished (h : Fit s) (hp : s.phase ≠ .closing) : s.noise.isFinished :=
  h.resolve_left hp

theorem fit_writeChunks (hn : s.noise.isFinished) (f : Frame) (cs : List Bytes) :
    Fit (s.writeChunks f cs).1 := by
  cases cs <;> exact Or.inr hn

theorem fit_pingChunks (hn : s.noise.isFinished) (cs : List Bytes) :
    Fit (s.pingChunks cfg now cs).1 := by
  cases cs <;> exact Or.inr hn

theorem fit_onPacket (hn : s.noise.isFinished) (data : Bytes) :
    Fit (s.onPacket pc cfg now data).1 := by
  unfold onPacket
  split
  · exact Or.inl rfl
  · next f hr =>
    have hn' := NoiseSession.isFinished_receive hn hr
    rcases f with _ | f
    · exact Or.inr hn'
    · dsimp only [handle]
      split <;> exact Or.inr hn'

theorem fit_onHeartbeat (hw : Speaks pc snow) (hn : s.noise.isFinished) :
    Fit (s.onHeartbeat pc cfg now).1 := by
  unfold onHeartbeat
  split
  · exact Or.inl rfl
  · split
    · exact Or.inr hn
    · next encoded _ =>
      obtain ⟨noise, cs, hcs, hn'⟩ := NoiseSession.encryptChunked_ok hw hn encoded
      rw [hcs]
      exact fit_pingChunks (s := { s with noise := noise }) hn' cs

/-- The head of the loop over the scheduler finds it empty, or begins to write a frame. -/
theorem pump_ok (hw : Speaks pc snow) (hn : s.noise.isFinished) :
    (∃ scheduler, s.scheduler.pop = (none, scheduler) ∧
      s.pump pc = ({ s with scheduler, phase := .select }, [])) ∨
    ∃ f scheduler noise cs, s.scheduler.pop = (some f, scheduler) ∧ noise.isFinished ∧
      s.pump pc = writeChunks { s with scheduler, noise } f cs := by
  unfold pump
  rcases hpop : s.scheduler.pop with ⟨_ | f, scheduler⟩
  · exact Or.inl ⟨scheduler, rfl, rfl⟩
  · obtain ⟨b, hb⟩ := hw.encode f
    obtain ⟨noise, cs, hcs, hn'⟩ := NoiseSession.encryptChunked_ok hw hn b
    exact Or.inr ⟨f, scheduler, noise, cs, rfl, hn', by simp [hb, hcs]⟩

theorem fit_pump (hw : Speaks pc snow) (hn : s.noise.isFinished) : Fit (s.pump pc).1 := by
  rcases pump_ok hw hn with ⟨scheduler, -, h⟩ | ⟨f, scheduler, noise, cs, -, hn', h⟩ <;> rw [h]
  · exact Or.inr hn
  · exact fit_writeChunks (s := { s with scheduler := scheduler, noise := noise }) hn' f cs

theorem step_fit (hw : Speaks pc snow) {r : Option (Session snow) × List SessionEffect}
    (hs : Fit s) (h : s.step pc cfg now i = some r) (hr : r.1 = some s') : Fit s' := by
  have hp : s.phase ≠ .closing := by
    intro hp
    rw [step_of_closing hp h] at hr
    cases hr
  have hn := hs.isFinished hp
  unfold step at h
  split at h <;> cases h <;> cases hr
  · exact fit_onPacket hn _
  · exact Or.inl rfl
  · next c _ =>
    cases c with
    | send => exact Or.inr hn
    | close => exact Or.inl rfl
  · exact fit_onHeartbeat hw hn
  · exact Or.inr hn
  · exact Or.inl rfl
  · exact fit_pump hw hn
  · exact fit_writeChunks hn _ _
  · exact Or.inl rfl
  · exact fit_pingChunks hn _
  · exact Or.inr hn

end Session

/-- The session goes on by itself: it takes a command, or what it waits for succeeds. -/
def ServedInput.smooth : ServedInput → Bool
  | .loop _ .proceed | .loop _ (.cmd _) | .loop _ (.sent (.ok ())) | .loop _ (.inboxed true) => true
  | _ => false

namespace Served

variable {snow : Snow} {pc : Postcard} {cfg : WsServerConfig} {p p' : Served snow}
  {i : ServedInput} {ks : List ServedInput} {queue taken : List SessionCmd} {s s' : Session snow}
  {o : List ServedEffect}

/-- By itself the session takes these commands and comes to its `select!`, with `queue` in the
channel. -/
def Settles (pc : Postcard) (cfg : WsServerConfig) (taken queue : List SessionCmd)
    (p : Served snow) : Prop :=
  ∃ ks p' s o, (∀ k ∈ ks, k.smooth) ∧ (machine pc cfg snow).run p ks = some (p', o) ∧
    takenBy ks = taken ∧ p'.session = some s ∧ s.phase = .select ∧ s.noise.isFinished ∧
    p'.queue = queue

theorem Settles.of_run (h : Settles pc cfg taken queue p') (hk : ∀ k ∈ ks, k.smooth)
    (hr : (machine pc cfg snow).run p ks = some (p', o)) :
    Settles pc cfg (takenBy ks ++ taken) queue p := by
  obtain ⟨ks', t, s, u, hk', hr', rfl, hrest⟩ := h
  refine ⟨ks ++ ks', t, s, o ++ u, ?_, Mealy.run_append.mpr ⟨p', o, u, hr, hr', rfl⟩, ?_, hrest⟩
  · intro k hm
    exact (List.mem_append.mp hm).elim (hk k) (hk' k)
  · simp [takenBy]

theorem Settles.of_step (h : Settles pc cfg taken queue p') (hi : i.smooth)
    (hs : (machine pc cfg snow).step p i = some (p', o)) :
    Settles pc cfg (takenBy [i] ++ taken) queue p := by
  have hr : (machine pc cfg snow).run p [i] = some (p', o) :=
    Mealy.run_cons.mpr ⟨p', o, [], hs, rfl, (List.append_nil o).symm⟩
  refine h.of_run ?_ hr
  intro k hk
  rw [List.mem_singleton.mp hk]
  exact hi

theorem received_same {j : SessionInput} (hj : ∀ c, j ≠ .cmd c) (queue : List SessionCmd) :
    received queue j = some queue := by
  cases j with
  | cmd c => exact absurd rfl (hj c)
  | _ => cases queue <;> rfl

/-- The session goes on by a step that takes no command. -/
theorem Settles.session (h : Settles pc cfg [] p.queue { p with session := some s' })
    (j : SessionInput) (hst : (s.step pc cfg.session 0 j).map Prod.fst = some (some s'))
    (hj : (ServedInput.loop 0 j).smooth) (hc : ∀ c, j ≠ .cmd c) :
    Settles pc cfg [] p.queue { p with session := some s } := by
  obtain ⟨⟨_, e⟩, hst, rfl⟩ := Option.map_eq_some_iff.mp hst
  have hs : (machine pc cfg snow).step { p with session := some s } (.loop 0 j) =
      some ({ p with session := some s' }, (.resumed j :: e).map .session) := by
    simp [machine, step, loop, received_same hc, Session.machine, hst]
  have ht : takenBy [.loop 0 j] = [] := by
    cases j with
    | cmd c => exact absurd rfl (hc c)
    | _ => rfl
  have hnext := h.of_step hj hs
  rwa [ht] at hnext

theorem settles_select (hp : s.phase = .select) (hn : s.noise.isFinished) :
    Settles pc cfg [] p.queue { p with session := some s } :=
  ⟨[], _, s, [], by simp, rfl, rfl, rfl, hp, hn, rfl⟩

theorem settles_pinging {rest : List Bytes} (hn : s.noise.isFinished) :
    s.phase = .pinging rest → Settles pc cfg [] p.queue { p with session := some s } := by
  induction rest generalizing s with
  | nil =>
    intro hp
    have hnext : Settles pc cfg [] p.queue { p with session := some (s.pingSent cfg.session 0) } :=
      settles_select rfl hn
    refine hnext.session (.sent (.ok ())) ?_ rfl (by simp)
    simp [Session.step, hp, Session.pingChunks]
  | cons c rest ih =>
    intro hp
    have hnext := ih (s := { s with phase := .pinging rest }) hn rfl
    refine hnext.session (.sent (.ok ())) ?_ rfl (by simp)
    simp [Session.step, hp, Session.pingChunks]

/-- The chunks of a frame are written. -/
theorem settles_writeChunks {f : Frame} {cs : List Bytes}
    (h : Settles pc cfg [] p.queue { p with session := some { s with phase := .pumping } }) :
    Settles pc cfg [] p.queue { p with session := some (s.writeChunks f cs).1 } := by
  induction cs generalizing s with
  | nil => exact h
  | cons c cs ih =>
    have hnext := ih (s := { s with phase := .writing f cs }) h
    refine hnext.session (.sent (.ok ())) ?_ rfl (by simp)
    simp [Session.step, Session.writeChunks]

/-- The loop over the scheduler ends, as each round takes a frame. -/
theorem settles_pumping (hw : Speaks pc snow) (hn : s.noise.isFinished) {n : ℕ} :
    s.phase = .pumping → s.scheduler.items.card ≤ n →
      Settles pc cfg [] p.queue { p with session := some s } := by
  induction n generalizing s with
  | zero =>
    intro hp hc
    rcases Session.pump_ok hw hn with ⟨scheduler, -, h⟩ | ⟨f, scheduler, noise, cs, hpop, -, -⟩
    · have hnext : Settles pc cfg [] p.queue
          { p with session := some { s with scheduler, phase := .select } } := settles_select rfl hn
      refine hnext.session .proceed ?_ rfl (by simp)
      simp [Session.step, hp, h]
    · simp [WfqScheduler.pop_some hpop] at hc
  | succ n ih =>
    intro hp hc
    rcases Session.pump_ok hw hn with ⟨scheduler, -, h⟩ | ⟨f, scheduler, noise, cs, hpop, hn', h⟩
    · have hnext : Settles pc cfg [] p.queue
          { p with session := some { s with scheduler, phase := .select } } := settles_select rfl hn
      refine hnext.session .proceed ?_ rfl (by simp)
      simp [Session.step, hp, h]
    · rw [WfqScheduler.pop_some hpop, Multiset.card_cons, Nat.add_le_add_iff_right] at hc
      have hrest := ih (s := { s with scheduler := scheduler, noise := noise, phase := .pumping })
        hn' rfl hc
      have hnext : Settles pc cfg [] p.queue
          { p with session := some (Session.writeChunks { s with scheduler, noise } f cs).1 } :=
        settles_writeChunks hrest
      refine hnext.session .proceed ?_ rfl (by simp)
      simp [Session.step, hp, h]

/-- A session that goes on comes to its `select!` by itself. -/
theorem settles (hw : Speaks pc snow) (hs : p.session = some s) (hp : s.phase ≠ .closing)
    (hn : s.noise.isFinished) : Settles pc cfg [] p.queue p := by
  have he : p = { p with session := some s } := by rw [← hs]
  rw [he]
  cases hphase : s.phase with
  | select => exact settles_select hphase hn
  | inboxing =>
    have hnext : Settles pc cfg [] p.queue { p with session := some { s with phase := .select } } :=
      settles_select rfl hn
    refine hnext.session (.inboxed true) ?_ rfl (by simp)
    simp [Session.step, hphase]
  | pumping => exact settles_pumping hw hn hphase le_rfl
  | writing f rest =>
    have hnext : Settles pc cfg [] p.queue { p with session := some (s.writeChunks f rest).1 } :=
      settles_writeChunks (settles_pumping hw hn rfl le_rfl)
    refine hnext.session (.sent (.ok ())) ?_ rfl (by simp)
    simp [Session.step, hphase]
  | pinging rest => exact settles_pinging hn hphase
  | closing => exact absurd hphase hp

/-- By itself the session takes the `Send` commands that are first in the channel. -/
theorem settles_take (hw : Speaks pc snow) {sends : List SessionCmd}
    (ht : ∀ c ∈ sends, c.send?.isSome) (h : Settles pc cfg taken (sends ++ queue) p) :
    Settles pc cfg (taken ++ sends) queue p := by
  induction sends generalizing taken with
  | nil => rwa [List.append_nil]
  | cons c sends ih =>
    rw [List.append_cons]
    refine ih (fun d hd => ht d (List.mem_cons_of_mem _ hd)) ?_
    obtain ⟨ks, p', s, o, hk, hr, rfl, hsession, hp, hn, hq⟩ := h
    refine .of_run ?_ hk hr
    cases c with
    | close => exact absurd (ht .close List.mem_cons_self) Bool.false_ne_true
    | send f priority =>
      have hs : (machine pc cfg snow).step p' (.loop 0 (.cmd (.send f priority))) =
          some ({ p' with session := some (s.onCmd (.send f priority)).1, queue := sends ++ queue },
            [.session (.resumed (.cmd (.send f priority))), .session (.queued f)]) := by
        simp [machine, step, loop, hq, received, Session.machine, hsession, Session.step, hp,
          Session.onCmd]
      have hnext : Settles pc cfg [] (sends ++ queue)
          { p' with session := some (s.onCmd (.send f priority)).1, queue := sends ++ queue } :=
        settles hw rfl (by simp [Session.onCmd]) hn
      exact hnext.of_step rfl hs

theorem run_fit (hw : Speaks pc snow) {noise : NoiseSession snow} {now : ℕ}
    (hn : noise.isFinished) (h : (machine pc cfg snow).run (start cfg now noise) ks = some (p, o)) :
    ∀ s, p.session = some s → s.Fit := by
  refine Mealy.run_invariant (P := fun p => ∀ s, p.session = some s → s.Fit) ?_ h ?_
  · rintro p i p' o hp hs s' hs'
    rcases hi : i.loop? with _ | ⟨now, j⟩
    · rw [(step_accepts hs hi).1] at hs'
      exact hp s' hs'
    · obtain rfl : i = .loop now j := by cases i <;> cases hi; rfl
      obtain ⟨queue, r, -, hr, rfl, -⟩ := loop_eq_some hs
      obtain ⟨s, r', hsome, hst, hr1, -⟩ := Session.machine_step.mp hr
      exact Session.step_fit hw (hp s hsome) hst (hr1 ▸ hs')
  · rintro _ ⟨⟩
    exact Or.inr hn

@[simp] theorem toFin_realTime : MessagePriority.realTime.toFin = 0 := rfl

/-- A `RealTime` frame of a command. -/
def isUrgent (x : Fin 4 × Frame) : Bool := x.1 == MessagePriority.realTime.toFin && isData x

/-- The frame is the first `RealTime` frame that is written, after at most 8 frames of lower
priority. -/
def Prompt (f : Frame) (v : List (Fin 4 × Frame)) : Prop :=
  ∃ before after, v = before ++ (MessagePriority.realTime.toFin, f) :: after ∧
    (∀ x ∈ before, ¬ isUrgent x) ∧ before.countP (·.1 ≠ MessagePriority.realTime.toFin) ≤ 8

/-- Wherever the session goes on, the frame has been written in time; or at most 8 frames of lower
priority have been, and if the session is not over it comes to write the frame in time by itself. -/
def WrittenInTime (pc : Postcard) (cfg : WsServerConfig) (p : Served snow) (f : Frame) : Prop :=
  ∀ ks p' q v,
    (writer pc cfg snow).run (p, MessagePriority.realTime.toFin) ks = some ((p', q), v) →
    Prompt f v ∨
      (∀ x ∈ v, ¬ isUrgent x) ∧ v.countP (·.1 ≠ MessagePriority.realTime.toFin) ≤ 8 ∧
      (p'.ended = false → ∃ ks' t v', (∀ k ∈ ks', k.smooth) ∧
        (writer pc cfg snow).run (p', q) ks' = some (t, v') ∧ Prompt f (v ++ v'))

section Lists

variable {v low rest before after : List (Fin 4 × Frame)} {f g : Frame}

/-- A list splits in one way at its first element that has `q`. -/
theorem first_unique {α : Type*} {q : α → Bool} {l l' r s : List α} {a b : α}
    (h : l ++ a :: r = l' ++ b :: s) (hl : ∀ x ∈ l, (!q x) = true)
    (hl' : ∀ x ∈ l', (!q x) = true) (ha : q a) (hb : q b) : l = l' ∧ a = b := by
  have hw : ∀ {l r : List α} {a : α}, (∀ x ∈ l, (!q x) = true) → q a →
      (l ++ a :: r).takeWhile (!q ·) = l := by
    intro l r a hl ha
    rw [List.takeWhile_append_of_pos hl, List.takeWhile_cons_of_neg (by simpa using ha),
      List.append_nil]
  obtain rfl : l = l' := by
    rw [← hw (r := r) hl ha, h]
    exact hw hl' hb
  exact ⟨rfl, (List.cons.inj (List.append_cancel_left h)).1⟩

/-- Of the frames written, those of lower priority are the data that is not urgent. -/
theorem countP_low (hd : ∀ x ∈ v, x.1 = 0 ∨ isData x) (hv : ∀ x ∈ v, ¬ isUrgent x) :
    v.countP (·.1 ≠ 0) = (v.filter isData).length := by
  rw [← List.countP_eq_length_filter]
  apply List.countP_congr
  intro x hx
  have hx' := hd x hx
  have hx'' := hv x hx
  by_cases h0 : x.1 = 0
  · simpa [h0, isUrgent] using hx''
  · simp [h0, hx'.resolve_left h0]

theorem countP_le (hd : ∀ x ∈ v, x.1 = 0 ∨ isData x) (hv : ∀ x ∈ v, ¬ isUrgent x)
    (hpre : v.filter isData <+: low ++ (0, f) :: rest) : v.countP (·.1 ≠ 0) ≤ low.length := by
  rw [countP_low hd hv]
  obtain ⟨t, ht⟩ := hpre
  rcases List.append_eq_append_iff.mp ht with ⟨a, rfl, -⟩ | ⟨a, ha, hcons⟩
  · simp
  · rcases a with _ | ⟨b, a⟩
    · rw [ha, List.append_nil]
    · obtain ⟨rfl, -⟩ := List.cons.inj hcons
      have hm : (0, f) ∈ v.filter isData := by rw [ha]; simp
      obtain ⟨hm, hdata⟩ := List.mem_filter.mp hm
      exact absurd (by simp [isUrgent, hdata]) (hv _ hm)

/-- The first urgent frame that is written is the first among the commands. -/
theorem first_urgent (hd : ∀ x ∈ before ++ (0, g) :: after, x.1 = 0 ∨ isData x)
    (hv : ∀ x ∈ before, ¬ isUrgent x) (hg : isData (0, g)) (hlow : ∀ x ∈ low, x.1 ≠ 0)
    (hpre : (before ++ (0, g) :: after).filter isData <+: low ++ (0, f) :: rest) :
    g = f ∧ before.countP (·.1 ≠ 0) = low.length := by
  obtain ⟨t, ht⟩ := hpre
  rw [List.filter_append, List.filter_cons_of_pos hg, List.append_assoc, List.cons_append] at ht
  have hbefore : ∀ x ∈ before.filter isData, (!(x.1 == 0)) = true := by
    intro x hx
    obtain ⟨hm, hx⟩ := List.mem_filter.mp hx
    simpa [isUrgent, hx] using hv x hm
  obtain ⟨heq, hgf⟩ :=
    first_unique (q := fun x => x.1 == 0) ht hbefore (by simpa using hlow) rfl rfl
  rw [countP_low (fun x hx => hd x (List.mem_append_left _ hx)) hv, heq]
  exact ⟨congrArg Prod.snd hgf, rfl⟩

end Lists

/-- The commands that wait ahead of the `RealTime` frame `f` have lower priorities. -/
structure Backlog (p : Served snow) (ahead : List SessionCmd) (f : Frame)
    (behind : List SessionCmd) : Prop where
  queue : p.queue = ahead ++ .send f .realTime :: behind
  lower : ∀ c ∈ ahead, ∃ g q, c = .send g q ∧ q ≠ .realTime

section Backlog

variable {ahead behind : List SessionCmd} {f : Frame} {v : List (Fin 4 × Frame)} {q q' : Fin 4}

theorem Backlog.low (hb : Backlog p ahead f behind) :
    ∀ x ∈ ahead.filterMap SessionCmd.send?, x.1 ≠ 0 := by
  intro x hx
  obtain ⟨c, hc, hx⟩ := List.mem_filterMap.mp hx
  obtain ⟨g, q, rfl, hne⟩ := hb.lower c hc
  cases hx
  cases q <;> first | exact absurd rfl hne | simp [MessagePriority.toFin]

theorem Backlog.length (hb : Backlog p ahead f behind) :
    (ahead.filterMap SessionCmd.send?).length = ahead.length := by
  rw [List.length_filterMap_eq_countP, List.countP_eq_length]
  intro c hc
  obtain ⟨g, q, rfl, -⟩ := hb.lower c hc
  rfl

/-- What is written in a continuation are the frames of the commands in their order. -/
theorem Backlog.written (hb : Backlog p ahead f behind) (hin : InOrder p.queue [] [] p)
    (hp : p.flying q = []) (h : (writer pc cfg snow).run (p, q) ks = some ((p', q'), v)) :
    (∀ x ∈ v, x.1 = 0 ∨ isData x) ∧
      ∃ rest, v.filter isData <+: ahead.filterMap SessionCmd.send? ++ (0, f) :: rest := by
  obtain ⟨tr, hr, hpre, -⟩ := run_flying h hp
  obtain ⟨hd, more, -, htk, hsends, -⟩ := run_inOrder hin hr
  refine ⟨fun x hx => hd x (hpre.subset hx), (behind ++ more).filterMap SessionCmd.send?, ?_⟩
  have hall := (hpre.filter isData).trans (hsends.trans (htk.filterMap _))
  rw [hb.queue] at hall
  simpa [SessionCmd.send?, MessagePriority.toFin] using hall

theorem Backlog.isData (hb : Backlog p ahead f behind) (hin : InOrder p.queue [] [] p) :
    NotifiTransport.isData (0, f) := by
  obtain ⟨-, more, hm, -⟩ := hin
  exact hm (.send f .realTime) (by simp [hb.queue]) (0, f) rfl

/-- The first urgent frame that is written is the frame that waits, after all that is ahead. -/
theorem Backlog.prompt (hb : Backlog p ahead f behind) (hin : InOrder p.queue [] [] p)
    (hp : p.flying q = []) (hle : ahead.length ≤ 8)
    (h : (writer pc cfg snow).run (p, q) ks = some ((p', q'), v))
    (hv : ¬ ∀ x ∈ v, ¬ isUrgent x) : Prompt f v := by
  obtain ⟨hd, rest, hpre⟩ := hb.written hin hp h
  cases hfind : v.find? isUrgent with
  | none => exact absurd (List.find?_eq_none.mp hfind) hv
  | some x =>
    obtain ⟨hx, before, after, rfl, hbefore⟩ := List.find?_eq_some_iff_append.mp hfind
    obtain ⟨k, g⟩ := x
    simp only [isUrgent, Bool.and_eq_true, beq_iff_eq] at hx
    obtain ⟨rfl, hg⟩ := hx
    have hbefore' : ∀ x ∈ before, ¬ isUrgent x := fun x hx => by simpa using hbefore x hx
    obtain ⟨rfl, hcount⟩ := first_urgent hd hbefore' hg hb.low hpre
    exact ⟨before, after, rfl, hbefore', by rw [toFin_realTime, hcount, hb.length]; exact hle⟩

theorem exists_writer {o : List ServedEffect}
    (h : (machine pc cfg snow).run p ks = some (p', o)) (q : Fin 4) :
    ∃ q' v, (writer pc cfg snow).run (p, q) ks = some ((p', q'), v) := by
  refine Mealy.run_induction (P := fun ks _ p' => ∃ q' v,
    (writer pc cfg snow).run (p, q) ks = some ((p', q'), v)) ⟨q, [], rfl⟩ ?_ h
  rintro ks _ m i m' o - ⟨k, v, hr⟩ hs
  exact ⟨_, _, Mealy.run_concat.mpr ⟨_, v, _, hr, writer_step.mpr ⟨o, hs, rfl, rfl⟩, rfl⟩⟩

/-- What has been taken from the channel and the `Send` commands that are first in it together go
as far as the frame. -/
theorem Backlog.ahead_taken (hb : Backlog p ahead f behind) {taken queue more : List SessionCmd}
    (h : p.queue ++ more = taken ++ queue) : ∃ sends post b, queue = sends ++ post ∧
      (∀ c ∈ sends, c.send?.isSome) ∧ taken ++ sends = ahead ++ .send f .realTime :: b := by
  rw [hb.queue, List.append_cons, List.append_assoc] at h
  rcases List.append_eq_append_iff.mp h with ⟨a, rfl, -⟩ | ⟨a, ha, rfl⟩
  · exact ⟨[], queue, a, rfl, by simp, by simp⟩
  · refine ⟨a, behind ++ more, [], rfl, ?_, ha.symm⟩
    intro c hc
    have hm : c ∈ ahead ++ [.send f .realTime] := by
      rw [ha]
      exact List.mem_append_right _ hc
    rcases List.mem_append.mp hm with hm | hm
    · obtain ⟨g, q, rfl, -⟩ := hb.lower c hm
      rfl
    · rw [List.mem_singleton.mp hm]
      rfl

/-- By itself a session that goes on writes the frame. -/
theorem Backlog.progress (hw : Speaks pc snow) (hb : Backlog p ahead f behind)
    (hin : InOrder p.queue [] [] p) (hp : p.flying q = [])
    (h : (writer pc cfg snow).run (p, q) ks = some ((p', q'), v))
    (hfit : ∀ s, p'.session = some s → s.Fit) (hlive : p'.ended = false) :
    ∃ ks' t v', (∀ k ∈ ks', k.smooth) ∧
      (writer pc cfg snow).run (p', q') ks' = some (t, v') ∧ (0, f) ∈ v ++ v' := by
  obtain ⟨s, hs, hne⟩ : ∃ s, p'.session = some s ∧ s.phase ≠ .closing := by
    rcases hs : p'.session with _ | s
    · simp [ended, hs] at hlive
    · exact ⟨s, rfl, by simpa [ended, hs] using hlive⟩
  obtain ⟨tr, hr, -, -⟩ := run_flying h hp
  obtain ⟨-, more, -, -, -, hgo⟩ := run_inOrder hin hr
  obtain ⟨-, hqueue, -, -⟩ := hgo s hs hne
  obtain ⟨sends, post, b, hq, hsends, htaken⟩ := hb.ahead_taken hqueue
  have hsettles : Settles pc cfg [] p'.queue p' := settles hw hs hne ((hfit s hs).isFinished hne)
  rw [hq] at hsettles
  obtain ⟨ks', t, s', o, hk, hrun, ht, hs', hp', -, -⟩ := settles_take hw hsends hsettles
  obtain ⟨k', v', hv'⟩ := exists_writer hrun q'
  refine ⟨ks', _, v', hk, hv', ?_⟩
  -- the session waits again, so all it took from the channel is written
  have hall := Mealy.run_append.mpr ⟨_, v, v', h, hv', rfl⟩
  obtain ⟨tr', hr', -, htr'⟩ := run_flying hall hp
  obtain ⟨-, more', -, -, -, hgo'⟩ := run_inOrder hin hr'
  obtain ⟨x, -, hst, hdata⟩ := hgo' s' hs' (by simp [hp'])
  have hx := hst.2
  simp only [hp'] at hx
  subst hx
  have htr := htr' (by simp [ended, hs', hp'])
  rw [show t.flying k' = [] by simp [flying, hs', Session.writing?, hp'], List.append_nil] at htr
  have hkeys : takenBy (ks ++ ks') = ahead ++ .send f .realTime :: b := by
    rw [List.nil_append] at ht
    rw [← htaken, ← ht]
    simp [takenBy]
  have hm : (0, f) ∈ (takenBy (ks ++ ks')).filterMap SessionCmd.send? := by
    rw [hkeys]
    simp [SessionCmd.send?, MessagePriority.toFin]
  rw [← hdata, Option.toList_none, List.append_nil, htr] at hm
  exact (List.mem_filter.mp hm).1

end Backlog

/-- A `RealTime` frame waits in the channel of a session at its `select!`, with no other `RealTime`
frame ahead of it. It is written after at most 8 frames of lower priority exactly if at most 8
commands are ahead of it. -/
theorem run_realTime_iff (hw : Speaks pc snow) {noise : NoiseSession snow} (hn : noise.isFinished)
    {now : ℕ} {js : List ServedInput} {u : List ServedEffect} {s : Session snow}
    {ahead behind : List SessionCmd} {f : Frame}
    (h : (machine pc cfg snow).run (start cfg now noise) js = some (p, u))
    (hs : p.session = some s) (hp : s.phase = .select) (hb : Backlog p ahead f behind) :
    WrittenInTime pc cfg p f ↔ ahead.length ≤ 8 := by
  have hin := run_select h hs hp
  have hfly : p.flying 0 = [] := by simp [flying, hs, Session.writing?, hp]
  constructor
  · intro hwrite
    have hlive : p.ended = false := by simp [ended, hs, hp]
    rcases hwrite [] p 0 [] rfl with ⟨before, after, hnil, -⟩ | ⟨-, -, hgo⟩
    · simp at hnil
    · obtain ⟨ks', ⟨p', q'⟩, v, -, hr, before, after, rfl, hbefore, hcount⟩ := hgo hlive
      obtain ⟨hd, rest, hpre⟩ := hb.written hin hfly hr
      rw [toFin_realTime, (first_urgent hd hbefore (hb.isData hin) hb.low hpre).2,
        hb.length] at hcount
      exact hcount
  · intro hle ks p' q v hr
    by_cases hv : ∀ x ∈ v, ¬ isUrgent x
    · obtain ⟨hd, rest, hpre⟩ := hb.written hin hfly hr
      have hcount := countP_le hd hv hpre
      rw [hb.length] at hcount
      refine Or.inr ⟨hv, hcount.trans hle, fun hlive => ?_⟩
      obtain ⟨o, hm⟩ := writer_run hr
      have hfit := run_fit hw hn (Mealy.run_append.mpr ⟨p, u, o, h, hm, rfl⟩)
      obtain ⟨ks', t, v', hk, hr', hmem⟩ := hb.progress hw hin hfly hr hfit hlive
      refine ⟨ks', t, v', hk, hr', ?_⟩
      refine hb.prompt hin hfly hle (Mealy.run_append.mpr ⟨_, v, v', hr, hr', rfl⟩) fun hno => ?_
      exact hno _ hmem (by simpa [isUrgent] using hb.isData hin)
    · exact Or.inl (hb.prompt hin hfly hle hr hv)

/-- An owner pushes `n` `Bulk` events and then a `RealTime` one. -/
def pushing (n : ℕ) : List ServedInput :=
  List.replicate n (.pushEvent [1] .bulk) ++ [.pushEvent [2] .realTime]

/-- The session writes `n` `Bulk` events. -/
def writing (n : ℕ) : List ServedInput :=
  (List.replicate n [.loop 0 (.cmd (.send ⟨0, .event, [1]⟩ .bulk)), .loop 0 .proceed,
    .loop 0 (.sent (.ok ())), .loop 0 .proceed]).flatten

/-- The wire format for data of any length. -/
def anyLength : Postcard := { Postcard.wire with toStdvec f := .ok (Postcard.frameBytes f) }

theorem speaks_anyLength : Speaks anyLength (Snow.ideal Ideal.genuine) where
  encode _ := ⟨_, rfl⟩
  write _ _ hm := ⟨_, if_pos ⟨le_rfl, hm⟩⟩

theorem run_realTime_iff_two : ∃ p u,
    (machine anyLength .sample (Snow.ideal Ideal.genuine)).run (start .sample 0 (Ideal.session _))
        (pushing 2) = some (p, u) ∧
      WrittenInTime anyLength .sample p ⟨0, .event, [2]⟩ := by
  let x := (machine anyLength .sample (Snow.ideal Ideal.genuine)).run
    (start .sample 0 (Ideal.session _)) (pushing 2)
  have hx : x = some (x.get rfl) := (Option.some_get rfl).symm
  have hs : (x.get rfl).1.session = some ((x.get rfl).1.session.get rfl) := rfl
  have hb : (x.get rfl).1.Backlog (List.replicate 2 (.send ⟨0, .event, [1]⟩ .bulk))
      ⟨0, .event, [2]⟩ [] := by
    refine ⟨rfl, ?_⟩
    intro c hc
    exact ⟨_, _, List.eq_of_mem_replicate hc, by simp⟩
  exact ⟨_, _, hx, (run_realTime_iff speaks_anyLength rfl hx hs rfl hb).mpr (by simp)⟩

/-- Nine `Bulk` events are written before a `RealTime` event that waits with them. -/
theorem run_realTime_waits : ∃ p t u v,
    (machine .wire .sample (Snow.ideal Ideal.genuine)).run (start .sample 0 (Ideal.session _))
        (pushing 9) = some (p, u) ∧
      p.session.map (·.phase) = some .select ∧
      p.Backlog (List.replicate 9 (.send ⟨0, .event, [1]⟩ .bulk)) ⟨0, .event, [2]⟩ [] ∧
      (writer .wire .sample (Snow.ideal Ideal.genuine)).run (p, 0) (writing 9) = some (t, v) ∧
      v = List.replicate 9 (3, ⟨0, .event, [1]⟩) ∧
      ¬ WrittenInTime .wire .sample p ⟨0, .event, [2]⟩ := by
  let x := (machine .wire .sample (Snow.ideal Ideal.genuine)).run
    (start .sample 0 (Ideal.session _)) (pushing 9)
  have hx : x = some (x.get rfl) := (Option.some_get rfl).symm
  let y := (writer .wire .sample (Snow.ideal Ideal.genuine)).run ((x.get rfl).1, 0) (writing 9)
  have hv : y.map (·.2) = some (List.replicate 9 (3, ⟨0, .event, [1]⟩)) := by decide +kernel
  obtain ⟨⟨t, v⟩, hy, rfl⟩ := Option.map_eq_some_iff.mp hv
  have hs : (x.get rfl).1.session.map (·.phase) = some .select := by decide +kernel
  have hq : (x.get rfl).1.queue = List.replicate 9 (SessionCmd.send ⟨0, .event, [1]⟩ .bulk) ++
    [SessionCmd.send ⟨0, .event, [2]⟩ .realTime] := by decide +kernel
  refine ⟨_, _, _, _, hx, hs, ⟨hq, ?_⟩, hy, rfl, fun hw => ?_⟩
  · intro c hc
    exact ⟨_, _, List.eq_of_mem_replicate hc, by simp⟩
  · rcases hw _ _ _ _ hy with ⟨before, after, hvv, -⟩ | ⟨-, hcount, -⟩
    · have hm : ((0, ⟨0, .event, [2]⟩) : Fin 4 × Frame) ∈
          List.replicate 9 (3, ⟨0, .event, [1]⟩) := by
        rw [hvv]
        simp
      simp at hm
    · exact absurd hcount (by decide)

end Served

end NotifiTransport

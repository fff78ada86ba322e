import NotifiTransport.Crypto.Ideal
import NotifiTransport.Frame.Postcard
import NotifiTransport.Server.Accept

/-! # The session and its handles

The session loop, its command channel and the handles that share the sender of it. Sends
never wait. A drop is a test of the reference count, a `Close` if the test found no other
handle, and the release of the reference, with steps of all others in between.
-/

namespace NotifiTransport

/-- How far a `ServerSessionHandle::drop` has come. -/
inductive DropStage where
  /-- `strong_count` has returned this. -/
  | tested (count : ℕ)
  /-- The count was 1, and `Close` was offered to the channel. -/
  | offered
  deriving DecidableEq, Repr

/-- A session with its command channel. -/
structure Served (snow : Snow) where
  session : Option (Session snow)
  queue : List SessionCmd
  /-- The handles that are not being dropped. -/
  handles : ℕ
  dropping : List DropStage

inductive ServedInput where
  /-- The session loop, at a time. A command is the first one in the channel. -/
  | loop (now : ℕ) (i : SessionInput)
  | respond (id : UInt32) (data : Bytes)
  | pushEvent (data : Bytes) (priority : MessagePriority)
  | close
  | clone
  /-- A drop begins. -/
  | test
  /-- The `k`-th of the drops in progress offers its `Close`. -/
  | offer (k : ℕ)
  /-- The `k`-th of the drops in progress releases its reference. -/
  | release (k : ℕ)
  deriving DecidableEq

inductive ServedEffect where
  | session (e : SessionEffect)
  /-- `respond` or `push_event` returns. -/
  | returned (r : Except TransportError Unit)
  deriving DecidableEq

/-- The loop takes a command from the channel. -/
def ServedInput.takes : ServedInput → Bool
  | .loop _ (.cmd _) => true
  | _ => false

namespace Served

variable {snow : Snow} (pc : Postcard) (cfg : WsServerConfig)

/-- The state in which `accept_ws_session` hands out the one handle. -/
def start (now : ℕ) (noise : NoiseSession snow) : Served snow where
  session := some (.start cfg.session now noise)
  queue := []
  handles := 1
  dropping := []

/-- `Arc::strong_count` of the sender. -/
def strongCount (p : Served snow) : ℕ := p.handles + p.dropping.length

/-- `try_send`, with its errors as `respond` and `push_event` report them. The receiver lives
until the session loop returns. -/
def trySend (p : Served snow) (c : SessionCmd) : Served snow × Except TransportError Unit :=
  if p.session.isNone then (p, .error .channelError)
  else if p.queue.length < cfg.bufferSize then ({ p with queue := p.queue ++ [c] }, .ok ())
  else (p, .error .bufferFull)

def respond (p : Served snow) (id : UInt32) (data : Bytes) :
    Served snow × Except TransportError Unit :=
  p.trySend cfg (.send ⟨id, .message, data⟩ .normal)

def pushEvent (p : Served snow) (data : Bytes) (priority : MessagePriority) :
    Served snow × Except TransportError Unit :=
  p.trySend cfg (.send ⟨0, .event, data⟩ priority)

/-- `ServerSessionHandle::close`, which has no result. -/
def close (p : Served snow) : Served snow := (p.trySend cfg .close).1

/-- The channel after an input of the loop. `recv` takes the first command; when the channel
is empty the branch waits, and is disabled when there is no sender either. -/
def received : List SessionCmd → SessionInput → Option (List SessionCmd)
  | c' :: queue, .cmd c => if c' = c then some queue else none
  | [], .cmd _ => none
  | queue, _ => some queue

/-- A step of the loop. The receiver is dropped when the loop returns. -/
def loop (p : Served snow) (now : ℕ) (i : SessionInput) :
    Option (Served snow × List ServedEffect) :=
  (received p.queue i).bind fun queue =>
    ((Session.machine pc cfg.session snow).step p.session (now, i)).map fun r =>
      ({ p with session := r.1, queue := if r.1.isSome then queue else [] }, r.2.map .session)

/-- The operations of a handle are called by its owner. -/
def step (p : Served snow) : ServedInput → Option (Served snow × List ServedEffect)
  | .loop now i => p.loop pc cfg now i
  | .respond id data =>
    if p.handles = 0 then none
    else some (let r := p.respond cfg id data; (r.1, [.returned r.2]))
  | .pushEvent data priority =>
    if p.handles = 0 then none
    else some (let r := p.pushEvent cfg data priority; (r.1, [.returned r.2]))
  | .close => if p.handles = 0 then none else some (p.close cfg, [])
  | .clone => if p.handles = 0 then none else some ({ p with handles := p.handles + 1 }, [])
  | .test =>
    if p.handles = 0 then none
    else some ({ p with
      handles := p.handles - 1
      dropping := p.dropping ++ [.tested p.strongCount] }, [])
  | .offer k =>
    if p.dropping[k]? = some (.tested 1) then
      some ({ p.close cfg with dropping := p.dropping.set k .offered }, [])
    else none
  | .release k =>
    if k < p.dropping.length ∧ p.dropping[k]? ≠ some (.tested 1) then
      some ({ p with dropping := p.dropping.eraseIdx k }, [])
    else none

/-- The session with its handles as a machine. -/
def machine (snow : Snow) : Mealy (Served snow) ServedInput ServedEffect where
  step p i := p.step pc cfg i

/-- The session loop is over. -/
def ended (p : Served snow) : Bool :=
  match p.session with
  | none => true
  | some s => decide (s.phase = .closing)

/-- `Close` is in the channel or the loop is over, and the commands that are queued are the
most that the loop takes before it is over. -/
def Terminating (p : Served snow) : Prop :=
  (.close ∈ p.queue ∨ p.ended = true) ∧ ∀ js t tr, (machine pc cfg snow).run p js = some (t, tr) →
    t.ended = true ∨ js.countP ServedInput.takes < p.queue.length

variable {pc cfg} {p p' t : Served snow} {i : ServedInput} {js : List ServedInput}
  {o tr : List ServedEffect}

theorem received_other {queue queue' : List SessionCmd} {j : SessionInput}
    (hj : ∀ c, j ≠ .cmd c) (h : received queue j = some queue') : queue' = queue := by
  cases j with
  | cmd c => exact absurd rfl (hj c)
  | _ => cases queue <;> exact (Option.some.inj h).symm

theorem received_cmd {queue queue' : List SessionCmd} {c : SessionCmd}
    (h : received queue (.cmd c) = some queue') : queue = c :: queue' := by
  cases queue with
  | nil => cases h
  | cons c' queue =>
    simp only [received, Option.ite_none_right_eq_some, Option.some.injEq] at h
    rw [h.1, h.2]

theorem trySend_session (p : Served snow) (cfg : WsServerConfig) (c : SessionCmd) :
    (p.trySend cfg c).1.session = p.session := by
  unfold trySend
  split
  · rfl
  · split <;> rfl

theorem trySend_queue (p : Served snow) (cfg : WsServerConfig) (c : SessionCmd) :
    (p.trySend cfg c).1.queue = p.queue ∨ (p.trySend cfg c).1.queue = p.queue ++ [c] := by
  unfold trySend
  split
  · exact Or.inl rfl
  · split
    · exact Or.inr rfl
    · exact Or.inl rfl

theorem loop_eq_some {now : ℕ} {j : SessionInput} (h : p.loop pc cfg now j = some (p', o)) :
    ∃ queue r, received p.queue j = some queue ∧
      (Session.machine pc cfg.session snow).step p.session (now, j) = some r ∧
        p' = { p with session := r.1, queue := if r.1.isSome then queue else [] } ∧
        o = r.2.map .session := by
  obtain ⟨queue, hq, h⟩ := Option.bind_eq_some_iff.mp h
  obtain ⟨r, hr, h⟩ := Option.map_eq_some_iff.mp h
  exact ⟨queue, r, hq, hr, (congrArg Prod.fst h).symm, (congrArg Prod.snd h).symm⟩

/-- Outside the loop commands are only added to the channel. -/
theorem step_handles (h : p.step pc cfg i = some (p', o)) (hi : ∀ now j, i ≠ .loop now j) :
    p'.session = p.session ∧ (p'.queue = p.queue ∨ ∃ c, p'.queue = p.queue ++ [c]) := by
  have hsend : ∀ c, (p.trySend cfg c).1.session = p.session ∧
      ((p.trySend cfg c).1.queue = p.queue ∨ ∃ c', (p.trySend cfg c).1.queue = p.queue ++ [c']) :=
    fun c => ⟨p.trySend_session cfg c, (p.trySend_queue cfg c).imp_right fun h => ⟨c, h⟩⟩
  cases i with
  | loop now j => exact absurd rfl (hi now j)
  | respond | pushEvent | close =>
    simp only [step, Option.ite_none_left_eq_some, Option.some.injEq, Prod.mk.injEq] at h
    obtain ⟨-, rfl, -⟩ := h
    exact hsend _
  | clone | test =>
    simp only [step, Option.ite_none_left_eq_some, Option.some.injEq, Prod.mk.injEq] at h
    obtain ⟨-, rfl, -⟩ := h
    exact ⟨rfl, Or.inl rfl⟩
  | offer k =>
    simp only [step, Option.ite_none_right_eq_some, Option.some.injEq, Prod.mk.injEq] at h
    obtain ⟨-, rfl, -⟩ := h
    exact hsend .close
  | release k =>
    simp only [step, Option.ite_none_right_eq_some, Option.some.injEq, Prod.mk.injEq] at h
    obtain ⟨-, rfl, -⟩ := h
    exact ⟨rfl, Or.inl rfl⟩

theorem step_ended (h : p.step pc cfg i = some (p', o)) (he : p.ended = true) :
    p'.ended = true := by
  by_cases hi : ∃ now j, i = .loop now j
  · obtain ⟨now, j, rfl⟩ := hi
    obtain ⟨queue, r, -, hr, rfl, -⟩ := loop_eq_some h
    obtain ⟨s, r', hs, hst, hr', -⟩ := Session.machine_step.mp hr
    have hp : s.phase = .closing := by simpa [ended, hs] using he
    rw [Session.step_of_closing hp hst] at hr'
    simp [ended, hr']
  · push Not at hi
    have hs := (step_handles h hi).1
    unfold ended
    rw [hs]
    exact he

theorem ended_of_close {now : ℕ} {r : Option (Session snow) × List SessionEffect}
    {s : Option (Session snow)}
    (h : (Session.machine pc cfg.session snow).step s (now, .cmd .close) = some r)
    (hr : p.session = r.1) : p.ended = true := by
  obtain ⟨s, r', rfl, hst, hr', -⟩ := Session.machine_step.mp h
  have hf : r' = (some s.finish.1, s.finish.2) := by
    cases hp : s.phase <;> simp [Session.step, Session.onCmd, hp] at hst
    exact hst.symm
  rw [ended, hr, hr', hf]
  rfl

/-- A `Close` moves up by one for each command that the loop takes, and ends the loop when it
is taken itself. -/
theorem step_behind {pre post : List SessionCmd} (h : p.step pc cfg i = some (p', o))
    (hq : p.queue = pre ++ .close :: post) :
    p'.ended = true ∨ ∃ pre' post', p'.queue = pre' ++ .close :: post' ∧
      pre'.length + [i].countP ServedInput.takes = pre.length := by
  by_cases hi : ∃ now j, i = .loop now j
  · obtain ⟨now, j, rfl⟩ := hi
    obtain ⟨queue, r, hrec, hr, rfl, -⟩ := loop_eq_some h
    rcases hs : r.1 with _ | s
    · exact Or.inl rfl
    by_cases hj : ∃ c, j = .cmd c
    · obtain ⟨c, rfl⟩ := hj
      have hqc := received_cmd hrec
      rw [hq] at hqc
      cases pre with
      | nil =>
        obtain ⟨rfl, -⟩ := List.cons.inj hqc
        exact Or.inl (ended_of_close hr hs.symm)
      | cons c' pre =>
        obtain ⟨-, rfl⟩ := List.cons.inj hqc
        exact Or.inr ⟨pre, post, by simp, rfl⟩
    · push Not at hj
      refine Or.inr ⟨pre, post, ?_, ?_⟩
      · simp [received_other hj hrec, hq]
      · cases j with
        | cmd c => exact absurd rfl (hj c)
        | _ => rfl
  · push Not at hi
    have hn : [i].countP ServedInput.takes = 0 := by
      cases i with
      | loop now j => exact absurd rfl (hi now j)
      | _ => rfl
    rw [hn]
    rcases (step_handles h hi).2 with hq' | ⟨c, hq'⟩
    · exact Or.inr ⟨pre, post, hq'.trans hq, rfl⟩
    · exact Or.inr ⟨pre, post ++ [c], by rw [hq', hq]; simp, rfl⟩

theorem run_behind {pre post : List SessionCmd}
    (h : (machine pc cfg snow).run p js = some (t, tr)) (hq : p.queue = pre ++ .close :: post) :
    t.ended = true ∨ ∃ pre' post', t.queue = pre' ++ .close :: post' ∧
      pre'.length + js.countP ServedInput.takes = pre.length := by
  refine Mealy.run_induction (P := fun js _ t => t.ended = true ∨ ∃ pre' post',
    t.queue = pre' ++ .close :: post' ∧
      pre'.length + js.countP ServedInput.takes = pre.length) ?_ ?_ h
  · exact Or.inr ⟨pre, post, hq, rfl⟩
  · rintro js tr m i m' o - (he | ⟨pre₁, post₁, hq₁, hn₁⟩) hs
    · exact Or.inl (step_ended hs he)
    · rcases step_behind hs hq₁ with he | ⟨pre₂, post₂, hq₂, hn₂⟩
      · exact Or.inl he
      · refine Or.inr ⟨pre₂, post₂, hq₂, ?_⟩
        rw [List.countP_append]
        omega

theorem run_ended (h : (machine pc cfg snow).run p js = some (t, tr)) (he : p.ended = true) :
    t.ended = true :=
  Mealy.run_invariant (P := fun p => p.ended = true) (fun _ _ _ _ he hs => step_ended hs he) h he

/-- A `Close` in the channel ends the loop in time. -/
theorem terminating_iff : Terminating pc cfg p ↔ .close ∈ p.queue ∨ p.ended = true := by
  constructor
  · exact fun h => h.1
  · intro hp
    refine ⟨hp, fun js t tr h => ?_⟩
    rcases hp with hc | he
    · obtain ⟨pre, post, hq⟩ := List.append_of_mem hc
      refine (run_behind h hq).imp_right ?_
      rintro ⟨pre', post', -, hn⟩
      rw [hq, List.length_append, List.length_cons]
      omega
    · exact Or.inl (run_ended h he)

/-- The receiver of a live session is there. -/
theorem trySend_live (c : SessionCmd) (hlive : p.ended = false) :
    p.trySend cfg c = if p.queue.length < cfg.bufferSize then
      ({ p with queue := p.queue ++ [c] }, .ok ()) else (p, .error .bufferFull) := by
  have hs : p.session.isNone = false := by
    rcases hs : p.session with _ | s
    · simp [ended, hs] at hlive
    · rfl
  simp [trySend, hs]

/-- `close` reaches a live session exactly if there is room for it, or another `Close`. -/
theorem close_terminates_iff (hh : 0 < p.handles) (hlive : p.ended = false) :
    ∃ p', (machine pc cfg snow).step p .close = some (p', []) ∧
      (Terminating pc cfg p' ↔ p.queue.length < cfg.bufferSize ∨ .close ∈ p.queue) := by
  have hs : (machine pc cfg snow).step p .close = some (p.close cfg, []) := by
    simp [machine, step, hh.ne']
  refine ⟨_, hs, ?_⟩
  rw [terminating_iff, close, trySend_live .close hlive]
  split
  · next hroom => exact iff_of_true (Or.inl (by simp)) (Or.inl hroom)
  · next hfull =>
    simp only [hlive, hfull, false_or]
    exact or_iff_left Bool.false_ne_true

/-- A server whose channels hold two items. -/
def narrow : WsServerConfig := { WsServerConfig.sample with bufferSize := 2 }

def narrowMachine : Mealy (Served (Snow.ideal Ideal.genuine)) ServedInput ServedEffect :=
  machine .wire narrow _

def narrowStart : Served (Snow.ideal Ideal.genuine) := start narrow 0 (Ideal.session _)

/-- One event is in the channel. -/
theorem close_terminates_iff_room : ∃ p tr p',
    narrowMachine.run narrowStart [.pushEvent [9] .normal] = some (p, tr) ∧
      narrowMachine.step p .close = some (p', []) ∧
      (Terminating .wire narrow p' ↔ p.queue.length < narrow.bufferSize ∨ .close ∈ p.queue) := by
  let r := narrowMachine.run narrowStart [.pushEvent [9] .normal]
  have h : r = some (r.get rfl) := (Option.some_get rfl).symm
  have hh : 0 < (r.get rfl).1.handles := by decide +kernel
  have hlive : (r.get rfl).1.ended = false := by decide +kernel
  obtain ⟨p', hs, hp⟩ := close_terminates_iff hh hlive
  exact ⟨_, _, p', h, hs, hp⟩

/-- The loop takes one of the commands that fill the channel and writes its frame. -/
def takeEvent : List ServedInput :=
  [.loop 1 (.cmd (.send ⟨0, .event, [9]⟩ .normal)), .loop 1 .proceed, .loop 1 (.sent (.ok ())),
    .loop 1 .proceed]

/-- `close` finds the channel full, and the session survives all that was queued. -/
theorem close_lost : ∃ p tr p' t tr',
    narrowMachine.run narrowStart [.pushEvent [9] .normal, .pushEvent [9] .normal] = some (p, tr) ∧
      p.ended = false ∧ narrowMachine.step p .close = some (p', []) ∧
      narrowMachine.run p' (takeEvent ++ takeEvent) = some (t, tr') ∧ t.ended = false ∧
      (takeEvent ++ takeEvent).countP ServedInput.takes = p'.queue.length ∧
      ¬ Terminating .wire narrow p' := by
  let r := narrowMachine.run narrowStart [.pushEvent [9] .normal, .pushEvent [9] .normal]
  have h : r = some (r.get rfl) := (Option.some_get rfl).symm
  let q := narrowMachine.step (r.get rfl).1 .close
  have hq : q = some ((q.get rfl).1, []) := rfl
  let u := narrowMachine.run (q.get rfl).1 (takeEvent ++ takeEvent)
  have hu : u = some (u.get rfl) := (Option.some_get rfl).symm
  have hlive : (u.get rfl).1.ended = false := by decide +kernel
  have htaken : (takeEvent ++ takeEvent).countP ServedInput.takes = (q.get rfl).1.queue.length := by
    decide +kernel
  refine ⟨_, _, _, _, _, h, by decide +kernel, hq, hu, hlive, htaken, ?_⟩
  rintro ⟨-, hend⟩
  rcases hend _ (u.get rfl).1 (u.get rfl).2 hu with he | hlt
  · rw [hlive] at he
    cases he
  · exact hlt.ne htaken

end Served

end NotifiTransport

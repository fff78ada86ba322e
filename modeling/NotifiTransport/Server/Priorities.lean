import NotifiTransport.Lib.Mealy
import NotifiTransport.Server.Handle

/-! # Priorities on the server

The session moves one `Send` command into the scheduler and drains the scheduler at once. So the
scheduler never holds more than Pongs and the frame of one command, and the frames of the commands
leave in the order of the channel, whatever their priorities.
-/

namespace NotifiTransport

/-- The queue and the frame of a `Send` command. -/
def SessionCmd.send? : SessionCmd → Option (Fin 4 × Frame)
  | .send frame priority => some (priority.toFin, frame)
  | .close => none

/-- The command that an input takes from the channel. -/
def SessionInput.taken : SessionInput → List SessionCmd
  | .cmd c => [c]
  | _ => []

/-- What the command of an input is to send. -/
def SessionInput.sends (i : SessionInput) : List (Fin 4 × Frame) :=
  i.taken.filterMap SessionCmd.send?

def ServedInput.loop? : ServedInput → Option (ℕ × SessionInput)
  | .loop now i => some (now, i)
  | _ => none

/-- Not a Pong of the session itself. -/
def isData (x : Fin 4 × Frame) : Bool := x.2.kind != .pong

/-- The scheduler holds `n` Pongs, and behind them the frame of one command or none. -/
def WfqScheduler.Holds (s : WfqScheduler Frame) (n : ℕ) (x : Option (Fin 4 × Frame)) : Prop :=
  ∀ i, s.queues i =
    (if i = MessagePriority.realTime.toFin then List.replicate n pongFrame else []) ++
    (x.bind fun y => if y.1 = i then some y.2 else none).toList

namespace WfqScheduler

variable {s s' : WfqScheduler Frame} {n : ℕ} {x : Option (Fin 4 × Frame)} {f : Frame}

theorem Holds.enqueue_pong (h : s.Holds n none) :
    (s.enqueue pongFrame .realTime).Holds (n + 1) none := by
  intro i
  by_cases hi : i = 0
  · subst hi
    simp [enqueue, MessagePriority.toFin, h 0, List.replicate_succ']
  · simp [enqueue, MessagePriority.toFin, hi, h i]

theorem Holds.enqueue (h : s.Holds n none) (f : Frame) (p : MessagePriority) :
    (s.enqueue f p).Holds n (some (p.toFin, f)) := by
  intro i
  by_cases hi : p.toFin = i
  · subst hi
    simp [WfqScheduler.enqueue, h p.toFin]
  · simp [WfqScheduler.enqueue, hi, Function.update_of_ne (Ne.symm hi), h i]

/-- The scheduler gives out a Pong, or the frame of the command. -/
theorem Holds.pop (h : s.Holds n x) (hp : s.pop = (some f, s')) :
    (f = pongFrame ∧ s.served = [0] ∧ ∃ k, s'.Holds k x) ∨
      ∃ i, x = some (i, f) ∧ s.served = [i] ∧ s'.Holds n none := by
  rcases s.pop_cases with ⟨-, hp'⟩ | ⟨i, y, rest, c, hq, hp'⟩ <;> rw [hp'] at hp <;> cases hp
  have hserved := served_of_pop hq hp'
  have hi := h i
  rw [hq] at hi
  by_cases h0 : i = MessagePriority.realTime.toFin ∧ 0 < n
  · -- a Pong comes first
    obtain ⟨rfl, hn⟩ := h0
    obtain ⟨k, rfl⟩ := Nat.exists_eq_succ_of_ne_zero hn.ne'
    rw [if_pos rfl, List.replicate_succ, List.cons_append, List.cons.injEq] at hi
    refine Or.inl ⟨hi.1, hserved, k, ?_⟩
    intro j
    by_cases hj : j = MessagePriority.realTime.toFin
    · subst hj
      simpa using hi.2
    · simpa [hj] using h j
  · have hnil : (if i = MessagePriority.realTime.toFin then List.replicate n pongFrame else []) =
        [] := by
      split
      · next hi0 =>
        rw [not_and] at h0
        rw [Nat.eq_zero_of_not_pos (h0 hi0), List.replicate_zero]
      · rfl
    rw [hnil, List.nil_append] at hi
    obtain _ | ⟨k, g⟩ := x
    · cases hi
    · by_cases hk : k = i
      · subst hk
        simp only [Option.bind_some, if_true, Option.toList_some, List.cons.injEq] at hi
        obtain ⟨rfl, rfl⟩ := hi
        refine Or.inr ⟨k, rfl, hserved, ?_⟩
        intro j
        by_cases hj : j = k
        · subst hj
          simp [hnil]
        · simpa [hj, Ne.symm hj] using h j
      · simp [hk] at hi

end WfqScheduler

namespace Session

variable {snow : Snow} {pc : Postcard} {cfg : SessionConfig} {now : ℕ} {s s' : Session snow}
  {x : Option (Fin 4 × Frame)} {n : ℕ}

/-- The queue and the frame that the loop over the scheduler takes in a step, if it goes on to
write it. -/
def serves (s : Session snow) (i : SessionInput) (s' : Session snow) : List (Fin 4 × Frame) :=
  match i with
  | .proceed =>
    if s'.phase = .closing then [] else s.scheduler.served.zip s.scheduler.pop.1.toList
  | _ => []

/-- The session goes on, with the frame `x` of a command in its scheduler or with none. Where it
waits there is none. -/
def Stocked (s : Session snow) (x : Option (Fin 4 × Frame)) : Prop :=
  (∃ n, s.scheduler.Holds n x) ∧
    match s.phase with
    | .select | .inboxing | .pinging _ => x = none
    | .pumping | .writing _ _ => True
    | .closing => False

theorem stocked_start (noise : NoiseSession snow) : Stocked (start cfg now noise) none :=
  ⟨⟨0, fun i => by simp [start, WfqScheduler.new]⟩, rfl⟩

/-- What a step does to the stock: it ends the session, or the frame it serves and the new stock
are the old stock and the frame of a command it takes. -/
def Restocks (s : Session snow) (x : Option (Fin 4 × Frame)) (i : SessionInput)
    (s' : Session snow) : Prop :=
  s'.phase = .closing ∨ ∃ x', Stocked s' x' ∧
    (s.serves i s').filter isData ++ x'.toList = x.toList ++ i.sends ∧
    ∀ y ∈ s.serves i s', y.1 = MessagePriority.realTime.toFin ∨ isData y

theorem Stocked.ne_closing (hs : Stocked s x) : s.phase ≠ .closing := by
  intro hp
  have h := hs.2
  rw [hp] at h
  exact h

theorem restocks_quiet {i : SessionInput} (hi : i ≠ .proceed) (hc : i.sends = [])
    (hs : Stocked s' x) : Restocks s x i s' := by
  have h : s.serves i s' = [] := by
    cases i <;> first | rfl | exact absurd rfl hi
  exact Or.inr ⟨x, hs, by simp [h, hc], by simp [h]⟩

theorem restocks_onPacket (hs : Stocked s none) (hp : s.phase = .select) (data : Bytes) :
    Restocks s none (.next (some (.ok (.binary data)))) (s.onPacket pc cfg now data).1 := by
  obtain ⟨⟨n, hn⟩, -⟩ := hs
  unfold onPacket
  split
  · exact Or.inl rfl
  · next f _ =>
    rcases f with _ | f
    · exact restocks_quiet nofun rfl ⟨⟨n, hn⟩, by simp [hp]⟩
    · refine restocks_quiet nofun rfl ?_
      dsimp only [handle]
      split
      · exact ⟨⟨n + 1, hn.enqueue_pong⟩, by simp [hp]⟩
      · exact ⟨⟨n, hn⟩, by simp [hp]⟩
      · exact ⟨⟨n, hn⟩, rfl⟩

theorem restocks_onCmd (hs : Stocked s none) (c : SessionCmd) :
    Restocks s none (.cmd c) (s.onCmd c).1 := by
  obtain ⟨⟨n, hn⟩, -⟩ := hs
  cases c with
  | send frame priority =>
    exact Or.inr ⟨some (priority.toFin, frame), ⟨⟨n, hn.enqueue frame priority⟩, trivial⟩, rfl,
      by simp [serves]⟩
  | close => exact Or.inl rfl

theorem stocked_pingChunks (hs : s.scheduler.Holds n none) (cs : List Bytes) :
    Stocked (s.pingChunks cfg now cs).1 none := by
  cases cs <;> exact ⟨⟨n, hs⟩, rfl⟩

theorem restocks_onHeartbeat (hs : Stocked s none) :
    Restocks s none .elapsed (s.onHeartbeat pc cfg now).1 := by
  obtain ⟨⟨n, hn⟩, -⟩ := hs
  rcases s.onHeartbeat_cases pc cfg now with h | h | ⟨_, noise, _, -, h | ⟨chunks, h⟩⟩ <;> rw [h]
  · exact Or.inl rfl
  · exact restocks_quiet nofun rfl ⟨⟨n, hn⟩, rfl⟩
  · exact restocks_quiet nofun rfl ⟨⟨n, hn⟩, rfl⟩
  · exact restocks_quiet nofun rfl (stocked_pingChunks (s := { s with noise := noise }) hn chunks)

theorem stocked_writeChunks {f : Frame} (hs : s.scheduler.Holds n x) (cs : List Bytes) :
    Stocked (s.writeChunks f cs).1 x := by
  cases cs <;> exact ⟨⟨n, hs⟩, trivial⟩

/-- The head of the loop over the scheduler serves a Pong, or the frame of the command. -/
theorem restocks_pump (hs : Stocked s x) (hx : ∀ y, x = some y → isData y) :
    Restocks s x .proceed (s.pump pc).1 := by
  obtain ⟨⟨n, hn⟩, -⟩ := hs
  rcases s.pump_cases pc with
    ⟨scheduler, hpop, h⟩ | ⟨s', h⟩ | ⟨f, scheduler, _, noise, chunks, hpop, -, h⟩ <;> rw [h]
  · obtain ⟨he, he'⟩ := WfqScheduler.pop_none hpop
    have hq := WfqScheduler.isEmpty_iff.mp he
    obtain rfl : x = none := by
      obtain _ | ⟨k, g⟩ := x
      · rfl
      · have hk := hn k
        simp [hq k] at hk
    refine Or.inr ⟨none, ⟨⟨0, ?_⟩, rfl⟩, ?_, ?_⟩
    · intro i
      simp [WfqScheduler.isEmpty_iff.mp he' i]
    · simp [serves, hpop, SessionInput.sends, SessionInput.taken]
    · simp [serves, hpop]
  · exact Or.inl rfl
  · rcases hn.pop hpop with ⟨rfl, hserved, k, hk⟩ | ⟨i, rfl, hserved, hk⟩
    · have hst := stocked_writeChunks (s := { s with scheduler := scheduler, noise := noise })
        (f := pongFrame) hk chunks
      have hserves : s.serves .proceed (writeChunks { s with scheduler, noise } pongFrame chunks).1 =
          [(0, pongFrame)] := by
        simp only [serves, if_neg hst.ne_closing, hserved, hpop]
        rfl
      refine Or.inr ⟨x, hst, ?_, ?_⟩ <;> rw [hserves]
      · simp [isData, pongFrame, SessionInput.sends, SessionInput.taken]
      · intro y hy
        rw [List.mem_singleton.mp hy]
        exact Or.inl rfl
    · have hd := hx _ rfl
      have hst := stocked_writeChunks (s := { s with scheduler := scheduler, noise := noise })
        (f := f) hk chunks
      have hserves : s.serves .proceed (writeChunks { s with scheduler, noise } f chunks).1 =
          [(i, f)] := by
        simp only [serves, if_neg hst.ne_closing, hserved, hpop]
        rfl
      refine Or.inr ⟨none, hst, ?_, ?_⟩ <;> rw [hserves]
      · simp [hd, SessionInput.sends, SessionInput.taken]
      · simp [hd]

theorem step_none {i : SessionInput} {r : Option (Session snow) × List SessionEffect}
    (h : s.step pc cfg now i = some r) (hr : r.1 = none) : i = .closed ∧ r.2 = [] := by
  unfold step at h
  split at h <;> cases h <;> first | exact ⟨rfl, rfl⟩ | cases hr

theorem step_restocks {i : SessionInput} {r : Option (Session snow) × List SessionEffect}
    (hs : Stocked s x) (hx : ∀ y, x = some y → isData y) (h : s.step pc cfg now i = some r)
    (hr : r.1 = some s') : Restocks s x i s' := by
  have hwait := hs.2
  unfold step at h
  split at h <;> cases h <;> cases hr
  · next hp =>
    simp only [hp] at hwait
    subst hwait
    exact restocks_onPacket hs hp _
  · exact Or.inl rfl
  · next hp =>
    simp only [hp] at hwait
    subst hwait
    exact restocks_onCmd hs _
  · next hp =>
    simp only [hp] at hwait
    subst hwait
    exact restocks_onHeartbeat hs
  · next hp =>
    simp only [hp] at hwait
    exact restocks_quiet nofun rfl ⟨hs.1, hwait⟩
  · exact Or.inl rfl
  · exact restocks_pump hs hx
  · obtain ⟨n, hn⟩ := hs.1
    exact restocks_quiet nofun rfl (stocked_writeChunks hn _)
  · exact Or.inl rfl
  · next hp =>
    simp only [hp] at hwait
    subst hwait
    obtain ⟨n, hn⟩ := hs.1
    exact restocks_quiet nofun rfl (stocked_pingChunks hn _)
  · next hp =>
    simp only [hp] at hwait
    exact restocks_quiet nofun rfl ⟨hs.1, hwait⟩

end Session

namespace Served

variable {snow : Snow} {pc : Postcard} {cfg : WsServerConfig} {p p' : Served snow}
  {i : ServedInput} {is ks : List ServedInput} {queue taken : List SessionCmd}
  {tr : List (Fin 4 × Frame)}

/-- The commands that the loop has taken from the channel. -/
def takenBy (is : List ServedInput) : List SessionCmd :=
  (is.filterMap ServedInput.loop?).flatMap (·.2.taken)

theorem takenBy_concat (is : List ServedInput) (i : ServedInput) :
    takenBy (is ++ [i]) = takenBy is ++ i.loop?.elim [] (·.2.taken) := by
  rw [takenBy, List.filterMap_append, List.flatMap_append]
  cases h : i.loop? <;> simp [takenBy, h]

/-- The frames that the session takes from its scheduler and goes on to write. -/
def servings (p : Served snow) (i : ServedInput) (p' : Served snow) : List (Fin 4 × Frame) :=
  match i, p.session, p'.session with
  | .loop _ j, some s, some s' => s.serves j s'
  | _, _, _ => []

/-- The handles queue messages, events and `Close` only. -/
def Regular (queue : List SessionCmd) : Prop := ∀ c ∈ queue, ∀ x, c.send? = some x → isData x

/-- With `queue` in the channel at first: the frames of commands that were served are those of the
commands taken, in their order, except for the one in the scheduler. -/
structure InOrder (queue taken : List SessionCmd) (tr : List (Fin 4 × Frame)) (p : Served snow) :
    Prop where
  data : ∀ x ∈ tr, x.1 = 0 ∨ isData x
  served : ∃ more, Regular (queue ++ more) ∧ taken <+: queue ++ more ∧
    tr.filter isData <+: taken.filterMap SessionCmd.send? ∧
    ∀ s, p.session = some s → s.phase ≠ .closing → ∃ x, queue ++ more = taken ++ p.queue ∧
      s.Stocked x ∧ tr.filter isData ++ x.toList = taken.filterMap SessionCmd.send?

theorem trySend_regular {c : SessionCmd} (hc : ∀ x, c.send? = some x → isData x)
    (h : InOrder queue taken tr p) : InOrder queue taken tr (p.trySend cfg c).1 := by
  obtain ⟨hd, more, hm, htk, hpre, hs⟩ := h
  unfold trySend
  split
  · exact ⟨hd, more, hm, htk, hpre, hs⟩
  · split
    · refine ⟨hd, more ++ [c], ?_, ?_, hpre, ?_⟩
      · intro d hdm x hx
        rw [← List.append_assoc] at hdm
        rcases List.mem_append.mp hdm with hdm | hdm
        · exact hm d hdm x hx
        · rw [List.mem_singleton.mp hdm] at hx
          exact hc x hx
      · rw [← List.append_assoc]
        exact htk.trans (List.prefix_append _ _)
      · intro s hsome hp
        obtain ⟨x, hq, hst, ht⟩ := hs s hsome hp
        refine ⟨x, ?_, hst, ht⟩
        rw [← List.append_assoc, hq, List.append_assoc]
    · exact ⟨hd, more, hm, htk, hpre, hs⟩

theorem received_taken {queue queue' : List SessionCmd} {j : SessionInput}
    (h : received queue j = some queue') : queue = j.taken ++ queue' := by
  cases j with
  | cmd c => exact received_cmd h
  | _ => exact (received_other (by simp) h).symm

theorem serves_of_closing {s s' : Session snow} (j : SessionInput) (hp : s'.phase = .closing) :
    s.serves j s' = [] := by
  cases j <;> simp [Session.serves, hp]

/-- A step of the loop serves the frames of the commands in their order. -/
theorem loop_inOrder {now : ℕ} {j : SessionInput} {o : List ServedEffect}
    (h : InOrder queue taken tr p) (hs : p.loop pc cfg now j = some (p', o)) :
    InOrder queue (taken ++ j.taken) (tr ++ servings p (.loop now j) p') p' := by
  obtain ⟨hd, more, hm, htk, hpre, hgo⟩ := h
  obtain ⟨rest, r, hq, hr, rfl, -⟩ := loop_eq_some hs
  obtain ⟨s, r', hsome, hst, hr1, -⟩ := Session.machine_step.mp hr
  have hq' := received_taken hq
  rcases hr' : r.1 with _ | s'
  · have hserv : servings p (.loop now j) { p with session := none, queue := [] } = [] := by
      simp [servings]
    obtain ⟨rfl, -⟩ := Session.step_none hst (hr1 ▸ hr')
    have hj : SessionInput.closed.taken = [] := rfl
    simp only [Option.isSome_none, Bool.false_eq_true, if_false, hserv, hj, List.append_nil]
    exact ⟨hd, more, hm, htk, hpre, by simp⟩
  · have hserv : ∀ q, servings p (.loop now j) { p with session := some s', queue := q } =
        s.serves j s' := by
      simp [servings, hsome]
    simp only [Option.isSome_some, if_true, hserv]
    by_cases hp : s.phase = .closing
    · rw [Session.step_of_closing hp hst, hr'] at hr1
      cases hr1
    · obtain ⟨x, htaken, hstock, ht⟩ := hgo s hsome hp
      have hx : ∀ y, x = some y → isData y := by
        rintro y rfl
        have hy : y ∈ taken.filterMap SessionCmd.send? := by rw [← ht]; simp
        obtain ⟨c, hc, hcy⟩ := List.mem_filterMap.mp hy
        exact hm c (by rw [htaken]; exact List.mem_append_left _ hc) y hcy
      have hall : queue ++ more = (taken ++ j.taken) ++ rest := by
        rw [htaken, hq', List.append_assoc]
      have htk' : taken ++ j.taken <+: queue ++ more := by
        rw [hall]
        exact List.prefix_append _ _
      rcases Session.step_restocks hstock hx hst (hr1 ▸ hr') with hcl | ⟨x', hst', hbal, hdata⟩
      · rw [serves_of_closing j hcl, List.append_nil]
        refine ⟨hd, more, hm, htk', ?_, ?_⟩
        · rw [List.filterMap_append]
          exact hpre.trans (List.prefix_append _ _)
        · rintro _ ⟨⟩ hne
          exact absurd hcl hne
      · -- what is served and what is in the scheduler are the commands taken
        have hnew : (tr ++ s.serves j s').filter isData ++ x'.toList =
            (taken ++ j.taken).filterMap SessionCmd.send? := by
          rw [List.filter_append, List.append_assoc, hbal, ← List.append_assoc, ht,
            List.filterMap_append]
          rfl
        refine ⟨?_, more, hm, htk', ?_, ?_⟩
        · intro y hy
          rcases List.mem_append.mp hy with hy | hy
          · exact hd y hy
          · exact hdata y hy
        · rw [← hnew]
          exact List.prefix_append _ _
        · rintro _ ⟨⟩ -
          exact ⟨x', hall, hst', hnew⟩

theorem InOrder.congr (h : InOrder queue taken tr p) (hs : p'.session = p.session)
    (hq : p'.queue = p.queue) : InOrder queue taken tr p' := by
  obtain ⟨hd, more, hm, htk, hpre, hgo⟩ := h
  refine ⟨hd, more, hm, htk, hpre, ?_⟩
  rw [hs, hq]
  exact hgo

theorem step_inOrder {o : List ServedEffect} (h : InOrder queue taken tr p)
    (hs : p.step pc cfg i = some (p', o)) :
    InOrder queue (taken ++ i.loop?.elim [] (·.2.taken)) (tr ++ servings p i p') p' := by
  cases i with
  | loop now j => exact loop_inOrder h hs
  | respond | pushEvent | close =>
    simp only [step, Option.ite_none_left_eq_some, Option.some.injEq, Prod.mk.injEq] at hs
    obtain ⟨-, rfl, -⟩ := hs
    simp only [servings, ServedInput.loop?, Option.elim_none, List.append_nil]
    exact trySend_regular (by rintro x ⟨⟩ <;> rfl) h
  | clone | test =>
    simp only [step, Option.ite_none_left_eq_some, Option.some.injEq, Prod.mk.injEq] at hs
    obtain ⟨-, rfl, -⟩ := hs
    simp only [servings, ServedInput.loop?, Option.elim_none, List.append_nil]
    exact h.congr rfl rfl
  | offer k =>
    simp only [step, Option.ite_none_right_eq_some, Option.some.injEq, Prod.mk.injEq] at hs
    obtain ⟨-, rfl, -⟩ := hs
    simp only [servings, ServedInput.loop?, Option.elim_none, List.append_nil]
    have hc : InOrder queue taken tr (p.close cfg) := trySend_regular (by rintro x ⟨⟩) h
    exact hc.congr rfl rfl
  | release k =>
    simp only [step, Option.ite_none_right_eq_some, Option.some.injEq, Prod.mk.injEq] at hs
    obtain ⟨-, rfl, -⟩ := hs
    simp only [servings, ServedInput.loop?, Option.elim_none, List.append_nil]
    exact h.congr rfl rfl

theorem run_inOrder (h₀ : InOrder queue [] [] p)
    (h : ((machine pc cfg snow).watch servings).run p ks = some (p', tr)) :
    InOrder queue (takenBy ks) tr p' := by
  refine Mealy.run_induction (P := fun ks tr p' => InOrder queue (takenBy ks) tr p') h₀ ?_ h
  rintro ks tr p i p' _ - hin hs
  obtain ⟨o, hst, rfl⟩ := Mealy.step_watch.mp hs
  rw [takenBy_concat]
  exact step_inOrder hin hst

/-- A session that waits in its `select!` has only Pongs in its scheduler, and only regular
commands in its channel. -/
theorem run_select {noise : NoiseSession snow} {now : ℕ} {js : List ServedInput}
    {u : List ServedEffect} {s : Session snow}
    (h : (machine pc cfg snow).run (start cfg now noise) js = some (p, u))
    (hs : p.session = some s) (hp : s.phase = .select) : InOrder p.queue [] [] p := by
  obtain ⟨tr, hw⟩ := Mealy.run_watch servings h
  have h₀ : InOrder [] [] [] (start cfg now noise) := by
    refine ⟨by simp, [], by simp [Regular], List.prefix_refl _, List.prefix_refl _, ?_⟩
    rintro _ ⟨⟩ -
    exact ⟨none, rfl, Session.stocked_start noise, rfl⟩
  obtain ⟨-, more, hm, -, -, hgo⟩ := run_inOrder h₀ hw
  obtain ⟨x, hq, hst, -⟩ := hgo s hs (by simp [hp])
  have hx := hst.2
  simp only [hp] at hx
  subst hx
  refine ⟨by simp, [], ?_, by simp, by simp, ?_⟩
  · intro c hc
    rw [List.append_nil] at hc
    exact hm c (by rw [hq]; exact List.mem_append_right _ hc)
  · intro s' hs' _
    rw [hs] at hs'
    cases hs'
    exact ⟨none, by simp, hst, rfl⟩

end Served

end NotifiTransport

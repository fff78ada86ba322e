import NotifiTransport.Client.Calls
import NotifiTransport.Lib.Visits

/-! # The connections of a client

In its life a client has any number of encrypted connections, one after the other, and each of them
is a conversation. A frame that a call has put in the channel is sealed on one of them at most, and
for each priority the frames are sealed in the order of the calls: what is missing was lost with a
connection, or is still waiting.
-/

namespace NotifiTransport

open scoped List

namespace Loop

variable {snow : Snow} {pc : Postcard} {cfg : WsClientConfig} {now : ℕ} {l : Loop snow}
  {i : Input} {r : Loop snow × List Effect} {k : Fin 4}

theorem seals_of_none (ha : l.accumulator? = none) : l.seals pc i = [] := by
  unfold seals
  split
  · next hp => simp [accumulator?, hp] at ha
  · next hp => simp [accumulator?, hp] at ha
  · rfl

theorem accumulator?_of_rested (h : l.phase.rested) : l.accumulator? = none := by
  unfold accumulator?
  cases hp : l.phase <;> rw [hp] at h <;> first | rfl | cases h

theorem received_of_rest {o : List Effect} (h : ∀ e ∈ o, e.ofRest) : received o = [] := by
  rw [received, List.filterMap_eq_nil_iff]
  intro e he
  have hr := h e he
  cases e <;> first | rfl | cases hr

theorem step_attempt_outside (h : l.step pc cfg now i = some r) (hatt : l.phase.attempting)
    (ha : l.accumulator? = none) : received r.2 = [] ∧
      (r.1.accumulator? = none ∨ ∃ url noise, r.1.phase = .authPayload url noise) := by
  cases hp : l.phase <;> rw [hp] at hatt <;> cases hatt <;> simp only [accumulator?, hp] at ha <;>
    simp only [step, hp] at h
  case connecting | sendHello | noiseSendE =>
    split at h <;> cases h <;> exact ⟨rfl, Or.inl rfl⟩
  case awaitReply =>
    split at h <;> cases h
    unfold onVersionReply
    split <;> exact ⟨rfl, Or.inl rfl⟩
  case noiseKeypair | noiseAwait =>
    split at h
    · split at h <;> cases h <;> exact ⟨rfl, Or.inl rfl⟩
    · cases h
  case noiseSendS url noise =>
    split at h
    · split at h <;> cases h
      · exact ⟨rfl, Or.inl rfl⟩
      · exact ⟨rfl, Or.inr ⟨_, _, rfl⟩⟩
    · cases h
      exact ⟨rfl, Or.inl rfl⟩
    · cases h
  all_goals cases ha

/-- Outside its connections the loop receives nothing, and the end of the Noise handshake is the
only way into one. -/
theorem step_outside (h : l.step pc cfg now i = some r) (ha : l.accumulator? = none) :
    received r.2 = [] ∧
      (r.1.accumulator? = none ∨ ∃ url noise, r.1.phase = .authPayload url noise) := by
  rcases step_cases h with ⟨hatt, -⟩ | hr | ⟨url, m, s, hp, -⟩
  · exact step_attempt_outside h hatt ha
  · exact ⟨received_of_rest hr.effects, Or.inl (accumulator?_of_rested hr.phase)⟩
  · simp [accumulator?, hp] at ha

theorem waiting_of_none (ha : l.accumulator? = none) : l.waiting k = [] := by
  unfold waiting
  split
  · next hp => simp [accumulator?, hp] at ha
  · rfl

/-- In every phase, what is sealed and what waits afterwards comes from what was waiting and from
the commands taken. -/
theorem step_waiting_le (h : l.step pc cfg now i = some r) :
    (queuedIn k (l.seals pc i) ++ r.1.waiting k).Sublist (l.waiting k ++ sendsTo k i.taken) := by
  cases ha : l.accumulator? with
  | none =>
    have hw : r.1.waiting k = [] := by
      rcases (step_outside h ha).2 with hn | ⟨url, noise, hp⟩
      · exact waiting_of_none hn
      · simp only [waiting, hp]
    rw [seals_of_none ha, hw]
    exact List.nil_sublist _
  | some acc =>
    obtain ⟨hgo, hpre⟩ := step_waiting (k := k) h (by rw [ha]; rfl)
    cases hr : r.1.accumulator? with
    | none =>
      rw [waiting_of_none hr, List.append_nil]
      exact hpre.sublist
    | some acc' =>
      rw [hgo (by rw [hr]; rfl)]

end Loop

namespace WsClient

variable {snow : Snow}

/-- The client has an encrypted connection. -/
def conversing (w : WsClient snow) : Bool := w.loop.accumulator?.isSome

/-- One of the connections of a client. -/
abbrev Connection (pc : Postcard) (snow : Snow) : Type :=
  Visit (WsClient snow) Event Output (Sealed pc) (Bytes × Bytes)

/-- The client with the connections that it has had. -/
def connections (pc : Postcard) (cfg : WsClientConfig) (parses : Text → Bool) (snow : Snow) :
    Mealy (WsClient snow × List (Connection pc snow)) Event Output :=
  (machine pc cfg parses snow).visiting (conversation pc cfg parses snow) conversing

variable {pc : Postcard} {cfg : WsClientConfig} {parses : Text → Bool} {w w' : WsClient snow}
  {e : Event} {es : List Event} {o tr : List Output} {cs cs' : List (Connection pc snow)}
  {calls : List (Fin 4 × Frame)} {k : Fin 4}

/-- A connection begins at the end of the Noise handshake. -/
def Handshaken (w : WsClient snow) : Prop := ∃ url noise, w.loop.phase = .authPayload url noise

theorem conversing_eq_false : w.conversing = false ↔ w.loop.accumulator? = none := by
  rw [conversing, Option.isSome_eq_false_iff, Option.isNone_iff_eq_none]

theorem step_enters (hw : w.conversing = false) (hw' : w'.conversing)
    (h : w.step pc cfg parses e = some (w', o)) : w'.Handshaken := by
  rcases step_loop_cases h with ⟨hl, -⟩ | ⟨i, r, -, -, hr, hl, -⟩
  · rw [conversing, hl] at hw'
    exact absurd hw' (by rw [← conversing, hw]; exact Bool.false_ne_true)
  · rw [Handshaken, hl]
    refine ((Loop.step_outside hr (conversing_eq_false.mp hw)).2).resolve_left fun hn => ?_
    rw [conversing, hl, hn] at hw'
    cases hw'

theorem conversing_step (hw : w.conversing) (h : w.step pc cfg parses e = some (w', o)) :
    (conversation pc cfg parses snow).step w e = some (w', o) :=
  conversation_step.mpr ⟨fun _ => hw, h⟩

theorem connections_visited
    (h : (connections pc cfg parses snow).run (new, []) es = some ((w, cs), tr)) :
    Mealy.Visited (conversation pc cfg parses snow) conversing Handshaken w cs :=
  Mealy.visiting_visited (fun _ _ _ _ hin hs => conversing_step hin hs)
    (fun _ _ _ _ hout hin hs => step_enters hout hin hs) rfl h

theorem connections_inputs
    (h : (connections pc cfg parses snow).run (new, []) es = some ((w, cs), tr)) :
    (cs.flatMap (·.inputs)).Sublist es :=
  Mealy.visiting_inputs (fun _ _ _ _ hin hs => conversing_step hin hs) rfl h

theorem step_waiting_le (h : w.step pc cfg parses e = some (w', o)) :
    (queuedIn k ((conversation pc cfg parses snow).seals w e) ++ w'.loop.waiting k).Sublist
      (w.loop.waiting k ++ sendsTo k (e.loop?.elim [] Input.taken)) := by
  rcases step_loop_cases h with ⟨hl, -, hne⟩ | ⟨i, r, rfl, -, hr, hl, -⟩ <;> rw [hl]
  · have he : e.loop? = none := by
      cases e <;> first | rfl | exact absurd rfl (hne _)
    simp [conversation, he, sendsTo]
  · exact Loop.step_waiting_le hr

/-- The frames of the calls that have been sealed on the connections, wait in the scheduler, or wait
in the channel, for one priority. -/
def kept (k : Fin 4) (w : WsClient snow) (cs : List (Connection pc snow)) : List Frame :=
  (queuedIn k (cs.flatMap (·.record.sealed)) ++ w.loop.waiting k).filter (·.kind != .pong) ++
    substream k (dataSends w.queue)

/-- A step keeps some of them and adds what a call has put in the channel. -/
theorem step_kept (hc : ∀ c ∈ w.calls, Loop.isControl c)
    (hv : Mealy.Visited (conversation pc cfg parses snow) conversing Handshaken w cs)
    (h : (connections pc cfg parses snow).step (w, cs) e = some ((w', cs'), o)) :
    (kept k w' cs').Sublist (kept k w cs ++ substream k (w.accepts cfg e w')) := by
  obtain ⟨hs, -⟩ := Mealy.step_visiting.mp h
  have hsealed : cs'.flatMap (·.record.sealed) =
      cs.flatMap (·.record.sealed) ++ (conversation pc cfg parses snow).seals w e := by
    refine hv.flatMap_step (fun v _ hstate => by rw [← hstate]; rfl) rfl ?_ h
    intro hout
    simp only [conversation]
    cases e.loop? with
    | none => rfl
    | some i => exact Loop.seals_of_none (conversing_eq_false.mp hout)
  have hqueue := congrArg (substream k) (step_accepts hs hc)
  rw [substream_append, substream_append] at hqueue
  have hmoved := (step_waiting_le (k := k) hs).filter (·.kind != .pong)
  rw [List.filter_append, List.filter_append, filter_sendsTo] at hmoved
  calc kept k w' cs'
    _ = (queuedIn k (cs.flatMap (·.record.sealed))).filter (·.kind != .pong) ++
          (((queuedIn k ((conversation pc cfg parses snow).seals w e)).filter (·.kind != .pong) ++
            (w'.loop.waiting k).filter (·.kind != .pong)) ++ substream k (dataSends w'.queue)) := by
      rw [kept, hsealed]
      simp
    _ <+ (queuedIn k (cs.flatMap (·.record.sealed))).filter (·.kind != .pong) ++
          (((w.loop.waiting k).filter (·.kind != .pong) ++
            substream k (dataSends (e.loop?.elim [] Input.taken))) ++
              substream k (dataSends w'.queue)) :=
      (List.Sublist.refl _).append (hmoved.append (List.Sublist.refl _))
    _ = kept k w cs ++ substream k (w.accepts cfg e w') := by
      rw [kept, List.append_assoc ((w.loop.waiting k).filter _), ← hqueue]
      simp

/-- On all connections together, what is sealed for a priority is made of frames that the calls have
put in the channel, each of them once and in the order of the calls. -/
theorem connections_sealed
    (h : (connections pc cfg parses snow).run (new, []) es = some ((w, cs), tr))
    (hw : ((machine pc cfg parses snow).watch (accepts cfg)).run new es = some (w', calls))
    (k : Fin 4) :
    ((queuedIn k (cs.flatMap (·.record.sealed))).filter (·.kind != .pong)).Sublist
      (substream k calls) := by
  have hkept : (kept k w cs).Sublist (substream k calls) := by
    refine Mealy.run_induction (P := fun es _ u => ∀ w' calls,
      ((machine pc cfg parses snow).watch (accepts cfg)).run new es = some (w', calls) →
        (kept k u.1 u.2).Sublist (substream k calls)) ?_ ?_ h w' calls hw
    · intro w' calls _
      exact List.nil_sublist _
    · rintro es tr ⟨m, cs⟩ e ⟨m', cs'⟩ o hr ih hs w' calls hw
      have hv := connections_visited hr
      have hrun : (machine pc cfg parses snow).run new es = some (m, tr) := Mealy.run_visiting hr
      obtain ⟨n, calls, o', hn, hs', rfl⟩ := Mealy.run_concat.mp hw
      obtain rfl : n = m := Mealy.run_watch_state hrun hn
      obtain ⟨o₁, hs₁, rfl⟩ := Mealy.step_watch.mp hs'
      cases (Mealy.step_visiting.mp hs).1.symm.trans hs₁
      rw [substream_append]
      exact (step_kept (run_calls hrun) hv hs).trans
        ((ih n calls hn).append (List.Sublist.refl _))
  refine List.Sublist.trans ?_ hkept
  rw [kept, List.filter_append, List.append_assoc]
  exact List.sublist_append_left _ _

/-- Whatever the client receives, it receives on one of its connections. -/
theorem connections_received
    (h : (connections pc cfg parses snow).run (new, []) es = some ((w, cs), tr)) :
    received (tr.filterMap Output.loop?) =
      cs.flatMap fun c => received (c.trace.filterMap Output.loop?) := by
  refine Mealy.run_induction (P := fun _ tr u => received (tr.filterMap Output.loop?) =
    u.2.flatMap fun c => received (c.trace.filterMap Output.loop?)) rfl ?_ h
  rintro es tr ⟨m, cs⟩ e ⟨m', cs'⟩ o hr ih hs
  obtain ⟨hst, -⟩ := Mealy.step_visiting.mp hs
  rw [List.filterMap_append, received_append, ih]
  refine ((connections_visited hr).flatMap_step ?_ rfl ?_ hs).symm
  · intro v _ _
    rw [Visit.extend, List.filterMap_append, received_append]
  · intro hout
    rcases step_loop_cases hst with ⟨-, ho, -⟩ | ⟨i, r, -, -, hstep, -, ho⟩ <;> rw [ho]
    · rfl
    · exact (Loop.step_outside hstep (conversing_eq_false.mp hout)).1

end WsClient

end NotifiTransport

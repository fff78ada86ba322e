import NotifiTransport.Lib.Padding
import NotifiTransport.Server.Accept
import NotifiTransport.Server.Inbound

/-! # Control frames on the server

A Ping or Pong of the WebSocket protocol ends whatever the server is doing: the handshake
with the error for a missing message, the session as if it had been closed. So it is without
effect only where nothing more was to come.
-/

namespace NotifiTransport

/-- A control frame that the WebSocket library hands to the reader. -/
def Message.isControl : Message → Bool
  | .ping _ | .pong _ => true
  | _ => false

theorem CryptoError.head?_toText (e : CryptoError) : e.toText.head? ≠ some 's' := by
  cases e with
  | patternParse | handshakeFailed | encryptFailed | decryptFailed =>
    exact show some 'n' ≠ some 's' by decide
  | invalidState => exact show some 'i' ≠ some 's' by decide
  | invalidKeyLength => exact show some 'u' ≠ some 's' by decide

namespace AcceptStage

variable {snow : Snow} {cfg : WsServerConfig} {send : Message → Except Text Unit}
  {stage : AcceptStage snow} {item : MessageItem}

/-- The message that the stage waits for, as far as its kind and the protocol name tell. -/
def expects (cfg : WsServerConfig) : AcceptStage snow → MessageItem → Bool
  | hello, some (.ok (.text helloMsg)) => cfg.protocolName ++ [' '] <+: helloMsg
  | key _, some (.ok (.binary _)) => true
  | final _, some (.ok (.binary _)) => true
  | _, _ => false

/-- The error for any other message. -/
def unexpected : AcceptStage snow → TransportError
  | hello => .protocolHandshakeFailed
  | key _ => .noiseHandshakeFailed "step 1: no E".toList
  | final _ => .noiseHandshakeFailed "step 3: no S,SE".toList

def rank : AcceptStage snow → ℕ
  | hello => 0
  | key _ => 1
  | final _ => 2

theorem rank_eq_of_unexpected {stage' : AcceptStage snow}
    (h : stage.unexpected = stage'.unexpected) : stage.rank = stage'.rank := by
  cases stage <;> cases stage' <;> simp only [unexpected] at h <;>
    first | rfl | exact absurd h (by decide)

theorem not_expects_control (stage : AcceptStage snow) (cfg : WsServerConfig) {m : Message}
    (hm : m.isControl = true) :
    stage.expects cfg (some (.ok m)) = false := by
  cases m <;> cases stage <;> first | rfl | cases hm

theorem next_of_not_expects (send : Message → Except Text Unit)
    (h : stage.expects cfg item = false) :
    (stage.next cfg send item).2 = .inr (.error stage.unexpected) := by
  unfold next
  split
  · next t =>
    have hp : ¬ cfg.protocolName ++ [' '] <+: t := by simpa [expects] using h
    simp [checkHello, hp, unexpected]
  · rfl
  · cases h
  · rfl
  · cases h
  · rfl

/-- The message is not taken for a missing one. -/
def Proceeds (stage : AcceptStage snow)
    (r : AcceptStage snow ⊕ Except TransportError (NoiseSession snow)) : Prop :=
  match r with
  | .inl stage' => stage.rank < stage'.rank
  | .inr r => ∀ stage' : AcceptStage snow, r ≠ .error stage'.unexpected

theorem proceeds_crypto (e : CryptoError) :
    stage.Proceeds (.inr (.error (.noiseHandshakeFailed e.toText))) := by
  rintro (_ | _ | _) h
  · cases h
  · exact e.head?_toText (by rw [TransportError.noiseHandshakeFailed.inj (Except.error.inj h)]; rfl)
  · exact e.head?_toText (by rw [TransportError.noiseHandshakeFailed.inj (Except.error.inj h)]; rfl)

theorem proceeds_connection (e : Text) : stage.Proceeds (.inr (.error (.connectionFailed e))) := by
  rintro (_ | _ | _) h <;> cases h

theorem proceeds_ok (noise : NoiseSession snow) : stage.Proceeds (.inr (.ok noise)) := by
  intro _ h
  cases h

theorem proceeds_acceptHello : (hello : AcceptStage snow).Proceeds (acceptHello cfg send snow) := by
  unfold acceptHello
  split
  · exact proceeds_connection _
  · split
    · exact proceeds_crypto _
    · exact Nat.zero_lt_one

theorem handshakeWrite_error {noise : NoiseSession snow} {e : TransportError}
    (h : handshakeWrite noise = .error e) :
    ∃ c : CryptoError, e = .noiseHandshakeFailed c.toText := by
  unfold handshakeWrite at h
  split at h
  · next c _ =>
    cases h
    exact ⟨c, rfl⟩
  · cases h

theorem proceeds_acceptKey (noise : NoiseSession snow) (data : Bytes) :
    (key noise).Proceeds (acceptKey send noise data).2 := by
  unfold acceptKey
  split
  · next e he =>
    unfold acceptReply at he
    split at he
    · next c _ =>
      cases he
      exact proceeds_crypto c
    · obtain ⟨c, rfl⟩ := handshakeWrite_error he
      exact proceeds_crypto c
  · split
    · exact proceeds_connection _
    · exact Nat.lt_add_one 1

theorem proceeds_acceptFinish (noise : NoiseSession snow) (data : Bytes) :
    (final noise).Proceeds (.inr (acceptFinish noise data)) := by
  unfold acceptFinish
  split
  · exact proceeds_crypto _
  · split
    · exact proceeds_ok _
    · rintro (_ | _ | _) h <;> simp only [unexpected] at h
      · cases h
      · exact absurd (Except.error.inj h) (by decide)
      · exact absurd (Except.error.inj h) (by decide)

theorem next_of_expects (send : Message → Except Text Unit)
    (h : stage.expects cfg item = true) :
    stage.Proceeds (stage.next cfg send item).2 := by
  unfold expects at h
  split at h
  · next t =>
    simp only [next, checkHello, of_decide_eq_true h, if_true]
    split
    · next e he =>
      split at he <;> cases he
      rintro (_ | _ | _) h <;> cases h
    · exact proceeds_acceptHello
  · exact proceeds_acceptKey _ _
  · exact proceeds_acceptFinish _ _
  · cases h

end AcceptStage

def SessionEffect.deliver? : SessionEffect → Option Frame
  | .deliver f => some f
  | _ => none

/-- The frames that a trace puts in the inbox, in order. -/
def delivered (tr : List SessionEffect) : List Frame := tr.filterMap SessionEffect.deliver?

namespace Session

variable {snow : Snow} {pc : Postcard} {cfg : SessionConfig} {now : ℕ} {s : Session snow}
  {i : SessionInput}

/-- The step reads the last packet of a frame for the inbox. -/
def Delivers (pc : Postcard) (cfg : SessionConfig) (s : Session snow) (i : SessionInput) : Prop :=
  ∃ data noise acc f, s.phase = .select ∧ i = .next (some (.ok (.binary data))) ∧
    receive pc s.noise s.accumulator data cfg.maxBytes = .ok (noise, acc, some f) ∧
    f.kind ≠ .ping ∧ f.kind ≠ .pong

theorem delivered_finish (s : Session snow) : delivered s.finish.2 = [] := rfl

theorem delivered_handle (s : Session snow) (f : Frame) :
    delivered (s.handle f).2 = [] ↔ f.kind = .ping ∨ f.kind = .pong := by
  rcases hk : f.kind <;> simp [handle, hk, delivered, SessionEffect.deliver?]

theorem delivered_pump (s : Session snow) : delivered (s.pump pc).2 = [] := by
  rcases s.pump_cases pc with ⟨_, -, h⟩ | ⟨s', h⟩ | ⟨f, _, _, _, chunks, -, -, h⟩ <;> rw [h]
  · rfl
  · rfl
  · cases chunks <;> rfl

theorem delivered_onHeartbeat (s : Session snow) :
    delivered (s.onHeartbeat pc cfg now).2 = [] := by
  rcases s.onHeartbeat_cases pc cfg now with h | h | ⟨_, _, _, -, h | ⟨chunks, h⟩⟩ <;> rw [h]
  · rfl
  · rfl
  · rfl
  · cases chunks <;> rfl

theorem delivered_onPacket (hp : s.phase = .select) (data : Bytes) :
    delivered (s.onPacket pc cfg now data).2 = [] ↔
      ¬ s.Delivers pc cfg (.next (some (.ok (.binary data)))) := by
  unfold onPacket
  split
  · next e he =>
    simp only [delivered_finish, true_iff]
    rintro ⟨_, noise, acc, f, -, ⟨⟩, hr, -⟩
    rw [he] at hr
    cases hr
  · next noise acc f he =>
    rcases f with _ | f
    · simp only [delivered, List.filterMap_nil, true_iff]
      rintro ⟨_, noise', acc', f, -, ⟨⟩, hr, -⟩
      rw [he] at hr
      cases hr
    · simp only [delivered_handle]
      constructor
      · rintro hk ⟨_, noise', acc', f', -, ⟨⟩, hr, hping, hpong⟩
        rw [he] at hr
        cases hr
        exact hk.elim hping hpong
      · intro hd
        by_contra hk
        rw [not_or] at hk
        exact hd ⟨data, noise, acc, f, hp, rfl, he, hk.1, hk.2⟩

theorem delivered_other {r : Option (Session snow) × List SessionEffect}
    (h : s.step pc cfg now i = some r)
    (hi : ∀ data, s.phase = .select → i ≠ .next (some (.ok (.binary data)))) :
    delivered r.2 = [] := by
  unfold step at h
  split at h <;> cases h
  · next data hp => exact absurd rfl (hi data hp)
  · rfl
  · next c hp => cases c <;> rfl
  · exact delivered_onHeartbeat s
  · rfl
  · rfl
  · exact delivered_pump s
  · next f rest hp => cases rest <;> rfl
  · rfl
  · next rest hp => cases rest <;> rfl
  · rfl
  · rfl

theorem step_control (s : Session snow) (pc : Postcard) (cfg : SessionConfig) (now : ℕ)
    {m : Message} (hp : s.phase = .select) (hm : m.isControl = true) :
    s.step pc cfg now (.next (some (.ok m))) = some (some s.finish.1, s.finish.2) := by
  cases m with
  | ping | pong => simp only [step, hp]
  | text | binary | close => cases hm

/-- A step puts a frame in the inbox exactly if it reads the last packet of one. -/
theorem step_delivered {r : Option (Session snow) × List SessionEffect}
    (h : s.step pc cfg now i = some r) : delivered r.2 = [] ↔ ¬ s.Delivers pc cfg i := by
  by_cases hi : ∀ data, s.phase = .select → i ≠ .next (some (.ok (.binary data)))
  · refine iff_of_true (delivered_other h hi) ?_
    rintro ⟨data, _, _, _, hp, rfl, -⟩
    exact hi data hp rfl
  · push Not at hi
    obtain ⟨data, hp, rfl⟩ := hi
    simp only [step, hp] at h
    cases h
    exact delivered_onPacket hp data

end Session

/-- What the owner of the socket sees: the result of `accept_ws_session` and the inbox. -/
inductive Observation (snow : Snow) where
  | result (r : Except TransportError (NoiseSession snow))
  | frame (f : Frame)

variable {snow : Snow}

def ServingEffect.observed? : ServingEffect snow → Option (Observation snow)
  | .send _ => none
  | .returned r => some (.result r)
  | .session e => e.deliver?.map .frame

def observed (tr : List (ServingEffect snow)) : List (Observation snow) :=
  tr.filterMap ServingEffect.observed?

namespace Serving

/-- The server waits in `ws.next()`. -/
def reads : Serving snow → Bool
  | accepting _ => true
  | session (some s) => decide (s.phase = .select)
  | _ => false

/-- `ws.next()` returns a control message. -/
def ControlRead (p : Serving snow) (i : ℕ × SessionInput) : Prop :=
  p.reads = true ∧ ∃ m : Message, i.2 = .next (some (.ok m)) ∧ m.isControl = true

variable (pc : Postcard) (cfg : WsServerConfig) (send : Message → Except Text Unit)

/-- The step reads the last packet of a frame for the inbox. -/
def Delivers (p : Serving snow) (i : ℕ × SessionInput) : Prop :=
  ∃ s, p = session (some s) ∧ s.Delivers pc cfg.session i.2

/-- In place of these inputs a control message could as well be read: the handshake gets
something else than it waits for, or the session nothing for the inbox. -/
def Unmoved (p : Serving snow) (is : List (ℕ × SessionInput)) : Prop :=
  match p with
  | accepting stage =>
    ∃ now item post, is = (now, .next item) :: post ∧ stage.expects cfg item = false
  | p => (machine pc cfg send snow).Along (fun p i => ¬ Delivers pc cfg p i) p is

variable {pc cfg send} {p p' t : Serving snow} {i c : ℕ × SessionInput}
  {is js : List (ℕ × SessionInput)} {o tr : List (ServingEffect snow)} {stage : AcceptStage snow}
  {item : MessageItem} {now : ℕ}

@[simp] theorem observed_send (ms : List Message) :
    observed (ms.map .send : List (ServingEffect snow)) = [] := by
  simp [observed, ServingEffect.observed?]

@[simp] theorem observed_session (o : List SessionEffect) :
    observed (o.map .session : List (ServingEffect snow)) = (delivered o).map .frame := by
  rw [observed, List.filterMap_map, delivered, List.map_filterMap]
  rfl

@[simp] theorem observed_append (o o' : List (ServingEffect snow)) :
    observed (o ++ o') = observed o ++ observed o' := List.filterMap_append ..

@[simp] theorem observed_returned (r : Except TransportError (NoiseSession snow)) :
    observed [.returned r] = [.result r] := rfl

theorem step_session {s : Option (Session snow)} :
    (machine pc cfg send snow).step (session s) i = some (p, o) ↔
      ∃ s' o', (Session.machine pc cfg.session snow).step s i = some (s', o') ∧ p = session s' ∧
        o = o'.map .session := by
  simp only [machine, Option.map_eq_some_iff, Prod.exists, Prod.mk.injEq]
  constructor
  · rintro ⟨s', o', hs, rfl, rfl⟩
    exact ⟨s', o', hs, rfl, rfl⟩
  · rintro ⟨s', o', hs, rfl, rfl⟩
    exact ⟨s', o', hs, rfl, rfl⟩

theorem emits_refused : (machine pc cfg send snow).emits refused is = [] := by
  cases is with
  | nil => rfl
  | cons i is => exact Mealy.emits_of_refused rfl

theorem emits_over : (machine pc cfg send snow).emits (session none) is = [] := by
  cases is with
  | nil => rfl
  | cons i is => exact Mealy.emits_of_refused rfl

/-- Every step of a session leads to a session, and shows a frame exactly if it completes one. -/
theorem step_session_observed {s : Option (Session snow)}
    (h : (machine pc cfg send snow).step (session s) i = some (p, o)) :
    ∃ s', p = session s' ∧ (observed o = [] ↔ ¬ Delivers pc cfg (session s) i) := by
  obtain ⟨s', o', hs, rfl, rfl⟩ := step_session.mp h
  obtain ⟨s, r, rfl, hst, rfl, rfl⟩ := Session.machine_step.mp hs
  refine ⟨r.1, rfl, ?_⟩
  have hd : delivered (.resumed i.2 :: r.2) = delivered r.2 := rfl
  rw [observed_session, hd, List.map_eq_nil_iff, Session.step_delivered hst]
  constructor
  · rintro h ⟨s', hs', hd⟩
    cases hs'
    exact h hd
  · rintro h hd
    exact h ⟨s, rfl, hd⟩

theorem run_session_observed {s : Option (Session snow)}
    (h : (machine pc cfg send snow).run (session s) is = some (t, tr)) :
    observed tr = [] ↔
      (machine pc cfg send snow).Along (fun p i => ¬ Delivers pc cfg p i) (session s) is := by
  induction is generalizing s tr with
  | nil =>
    obtain ⟨-, rfl⟩ := Mealy.run_nil.mp h
    exact iff_of_true rfl Mealy.along_nil
  | cons i is ih =>
    obtain ⟨p, o, tr', hs, hr, rfl⟩ := Mealy.run_cons.mp h
    obtain ⟨s', rfl, ho⟩ := step_session_observed hs
    rw [observed_append, List.append_eq_nil_iff, ho, ih hr, Mealy.along_cons]
    constructor
    · rintro ⟨hi, hrest⟩
      refine ⟨hi, fun p o' hs' => ?_⟩
      rw [hs] at hs'
      cases hs'
      exact hrest
    · rintro ⟨hi, hrest⟩
      exact ⟨hi, hrest _ _ hs⟩

/-- A session that leaves its loop shows nothing more. -/
theorem emits_closing {s : Session snow} (hp : s.phase = .closing) :
    observed ((machine pc cfg send snow).emits (session (some s)) is) = [] := by
  cases is with
  | nil => rfl
  | cons i is =>
    rcases hs : (machine pc cfg send snow).step (session (some s)) i with _ | ⟨p, o⟩
    · rw [Mealy.emits_of_refused hs]
      rfl
    · obtain ⟨s', o', hm, rfl, rfl⟩ := step_session.mp hs
      obtain ⟨_, r, ⟨⟩, hst, rfl, rfl⟩ := Session.machine_step.mp hm
      obtain rfl := Session.step_of_closing hp hst
      rw [Mealy.emits_cons hs, emits_over]
      rfl

theorem step_unexpected (pc : Postcard) (send : Message → Except Text Unit) (now : ℕ)
    (h : stage.expects cfg item = false) :
    ∃ o, (machine pc cfg send snow).step (accepting stage) (now, .next item) = some (refused, o) ∧
      observed o = [.result (.error stage.unexpected)] := by
  have hn := AcceptStage.next_of_not_expects send h
  rcases hx : stage.next cfg send item with ⟨ms, r⟩
  rw [hx] at hn
  obtain rfl : r = .inr (.error stage.unexpected) := hn
  refine ⟨ms.map .send ++ [.returned (.error stage.unexpected)], ?_, ?_⟩
  · exact congrArg (some ∘ afterRead) hx
  · rw [observed_append, observed_send, observed_returned, List.nil_append]

/-- What an observer sees of a control message. -/
def controlSeen : Serving snow → List (Observation snow)
  | accepting stage => [.result (.error stage.unexpected)]
  | _ => []

/-- A control message makes the handshake fail and the session leave its loop. -/
theorem step_controlRead (pc : Postcard) (cfg : WsServerConfig) (send : Message → Except Text Unit)
    (hc : ControlRead p c) :
    ∃ p' o, (machine pc cfg send snow).step p c = some (p', o) ∧ observed o = controlSeen p ∧
      ∀ ks, observed ((machine pc cfg send snow).emits p' ks) = [] := by
  obtain ⟨hp, m, hi, hm⟩ := hc
  obtain ⟨now, i⟩ := c
  obtain rfl : i = .next (some (.ok m)) := hi
  match p, hp with
  | accepting stage, _ =>
    obtain ⟨o, hs, ho⟩ := step_unexpected pc send now (stage.not_expects_control cfg hm)
    refine ⟨refused, o, hs, ho, fun ks => ?_⟩
    rw [emits_refused]
    rfl
  | session (some s), hp =>
    have hs := s.step_control pc cfg.session now (of_decide_eq_true hp) hm
    have hm : (machine pc cfg send snow).step (session (some s)) (now, .next (some (.ok m))) =
        some (session (some s.finish.1),
          (.resumed (.next (some (.ok m))) :: s.finish.2).map .session) :=
      step_session.mpr ⟨_, _, Session.machine_step.mpr ⟨s, _, rfl, hs, rfl, rfl⟩, rfl, rfl⟩
    exact ⟨_, _, hm, rfl, fun ks => emits_closing rfl⟩

theorem afterRead_returned (ms : List Message) (r : Except TransportError (NoiseSession snow)) :
    ∃ p, afterRead (ms, .inr r) = (p, ms.map .send ++ [.returned r]) := by
  rcases r with e | noise
  · exact ⟨refused, rfl⟩
  · exact ⟨accepted noise, rfl⟩

/-- The message that is waited for leads to a later stage, or to another result. -/
theorem emits_expected (pc : Postcard) (send : Message → Except Text Unit) (now : ℕ)
    (is : List (ℕ × SessionInput)) (h : stage.expects cfg item = true) :
    (∃ stage', stage.rank < stage'.rank ∧
        observed ((machine pc cfg send snow).emits (accepting stage) ((now, .next item) :: is)) =
          observed ((machine pc cfg send snow).emits (accepting stage') is)) ∨
      ∃ r l, (∀ stage' : AcceptStage snow, r ≠ .error stage'.unexpected) ∧
        observed ((machine pc cfg send snow).emits (accepting stage) ((now, .next item) :: is)) =
          .result r :: l := by
  have hn := AcceptStage.next_of_expects send h
  rcases hx : stage.next cfg send item with ⟨ms, stage' | r⟩
  · rw [hx] at hn
    have hs : (machine pc cfg send snow).step (accepting stage) (now, .next item) =
        some (accepting stage', ms.map .send) := congrArg (some ∘ afterRead) hx
    refine Or.inl ⟨stage', hn, ?_⟩
    rw [Mealy.emits_cons hs, observed_append, observed_send, List.nil_append]
  · rw [hx] at hn
    obtain ⟨p, hp⟩ := afterRead_returned ms r
    have hs : (machine pc cfg send snow).step (accepting stage) (now, .next item) =
        some (p, ms.map .send ++ [.returned r]) := by
      rw [← hp, ← hx]
      rfl
    refine Or.inr ⟨r, observed ((machine pc cfg send snow).emits p is), hn, ?_⟩
    rw [Mealy.emits_cons hs, observed_append, observed_append, observed_send, observed_returned]
    rfl

theorem emits_unexpected (pc : Postcard) (send : Message → Except Text Unit) (now : ℕ)
    (is : List (ℕ × SessionInput)) (h : stage.expects cfg item = false) :
    observed ((machine pc cfg send snow).emits (accepting stage) ((now, .next item) :: is)) =
      [.result (.error stage.unexpected)] := by
  obtain ⟨o, hs, ho⟩ := step_unexpected pc send now h
  rw [Mealy.emits_cons hs, emits_refused, List.append_nil, ho]

/-- A stage that comes later fails with other errors. -/
theorem accepting_observed_ne {stage' : AcceptStage snow} (h : stage'.rank < stage.rank) :
    observed ((machine pc cfg send snow).emits (accepting stage) is) ≠
      [.result (.error stage'.unexpected)] := by
  induction is generalizing stage with
  | nil => exact (List.cons_ne_nil _ _).symm
  | cons i is ih =>
    obtain ⟨now, i⟩ := i
    cases i with
    | next item =>
      intro heq
      rcases he : stage.expects cfg item with _ | _
      · rw [emits_unexpected pc send now is he] at heq
        injection heq with heq
        injection heq with heq
        injection heq with heq
        exact h.ne (AcceptStage.rank_eq_of_unexpected heq).symm
      · rcases emits_expected pc send now is he with ⟨stage₁, hlt, ho⟩ | ⟨r, l, hr, ho⟩
        · exact ih (h.trans hlt) (ho.symm.trans heq)
        · rw [ho] at heq
          injection heq with heq
          injection heq with heq
          exact hr stage' heq
    | _ => exact (List.cons_ne_nil _ _).symm

theorem reads_of_step {i : SessionInput}
    (h : (machine pc cfg send snow).step (accepting stage) (now, i) = some (p, o)) :
    ∃ item, i = .next item := by
  cases i with
  | next item => exact ⟨item, rfl⟩
  | _ => cases h

/-- A control message is unnoticed exactly if the rest of the run is unmoved by it. -/
theorem controlRead_iff (hc : ControlRead p c)
    (h : (machine pc cfg send snow).run p is = some (t, tr)) :
    observed ((machine pc cfg send snow).emits p [c]) =
        observed ((machine pc cfg send snow).emits p is) ↔ Unmoved pc cfg send p is := by
  obtain ⟨p', o, hs, ho, -⟩ := step_controlRead pc cfg send hc
  rw [Mealy.emits_cons hs, Mealy.emits_nil, List.append_nil, ho]
  match p, hc.1 with
  | session (some s), _ =>
    rw [Mealy.emits_of_run h]
    exact eq_comm.trans (run_session_observed h)
  | accepting stage, _ =>
    constructor
    · intro heq
      cases is with
      | nil => exact absurd heq (List.cons_ne_nil _ _)
      | cons i is =>
        obtain ⟨_, _, _, hst, -, -⟩ := Mealy.run_cons.mp h
        obtain ⟨now, i⟩ := i
        obtain ⟨item, rfl⟩ := reads_of_step hst
        refine ⟨now, item, is, rfl, ?_⟩
        rw [← Bool.not_eq_true]
        intro he
        rcases emits_expected pc send now is he with ⟨stage', hlt, hn⟩ | ⟨r, l, hr, hn⟩
        · exact accepting_observed_ne hlt (hn.symm.trans heq.symm)
        · injection hn.symm.trans heq.symm with hn
          injection hn with hn
          exact hr stage hn
    · rintro ⟨now, item, post, rfl, he⟩
      exact (emits_unexpected pc send now post he).symm

/-- With control messages put into the incoming messages, at any place where the server reads
them, the result of `accept_ws_session` and the inbox are what they are without, exactly if
wherever one is read the rest of the run is unmoved by it. -/
theorem run_control_frames_iff
    (h : (machine pc cfg send snow).run (accepting .hello) is = some (t, tr))
    (hp : (machine pc cfg send snow).Padded ControlRead (accepting .hello) is js) :
    observed ((machine pc cfg send snow).emits (accepting .hello) js) = observed tr ↔
      ∀ pre c post rest, js = pre ++ c :: post → is = pre ++ rest →
        ∀ p u, (machine pc cfg send snow).run (accepting .hello) pre = some (p, u) →
          ControlRead p c → Unmoved pc cfg send p rest := by
  have hlast : ∀ p c, ControlRead p c → ∃ p' o,
      (machine pc cfg send snow).step p c = some (p', o) ∧
        ∀ ks, ((machine pc cfg send snow).emits p' ks).filterMap ServingEffect.observed? = [] := by
    intro p c hc
    obtain ⟨p', o, hs, -, hend⟩ := step_controlRead pc cfg send hc
    exact ⟨p', o, hs, hend⟩
  rw [← Mealy.emits_of_run h]
  refine (Mealy.padded_observed_iff hlast hp).trans ?_
  constructor
  · rintro hall pre c post rest rfl rfl p u hm hc
    obtain ⟨v, hr, -⟩ := Mealy.run_rest h hm
    exact (controlRead_iff hc hr).mp (hall pre c post rest rfl rfl p u hm hc)
  · rintro hall pre c post rest rfl rfl p u hm hc
    obtain ⟨v, hr, -⟩ := Mealy.run_rest h hm
    exact (controlRead_iff hc hr).mpr (hall pre c post rest rfl rfl p u hm hc)

/-- The server that an accepted client talks to. -/
def sample : Mealy (Serving (Snow.ideal Ideal.genuine)) (ℕ × SessionInput)
    (ServingEffect (Snow.ideal Ideal.genuine)) :=
  machine .wire .sample (fun _ => .ok ()) _

/-- The client's three messages and the first poll of the task. -/
def acceptedRun : List (ℕ × SessionInput) :=
  [(0, .next (some (.ok (.text "NOTIFI_APP 1.0.0".toList)))),
    (0, .next (some (.ok (.binary (List.replicate 32 0))))),
    (0, .next (some (.ok (.binary (List.replicate 64 0))))), (0, .proceed)]

def eventRead : ℕ × SessionInput := (1, .next (some (.ok (.binary eventPacket))))

def pingRead : ℕ × SessionInput := (1, .next (some (.ok (.ping []))))

/-- The Ping comes when the event is in the inbox. -/
theorem run_control_frames_iff_late : ∃ t tr,
    sample.run (accepting .hello) (acceptedRun ++ [eventRead, (1, .inboxed true)] ++ []) =
        some (t, tr) ∧
      (observed (sample.emits (accepting .hello)
          (acceptedRun ++ [eventRead, (1, .inboxed true)] ++ [pingRead])) = observed tr ↔
        ∀ pre c post rest,
          acceptedRun ++ [eventRead, (1, .inboxed true)] ++ [pingRead] = pre ++ c :: post →
          acceptedRun ++ [eventRead, (1, .inboxed true)] ++ [] = pre ++ rest →
          ∀ p u, sample.run (accepting .hello) pre = some (p, u) →
            ControlRead p c → Unmoved .wire .sample (fun _ => .ok ()) p rest) := by
  let r := sample.run (accepting .hello) (acceptedRun ++ [eventRead, (1, .inboxed true)])
  have h : r = some (r.get rfl) := (Option.some_get rfl).symm
  have hc : ControlRead (r.get rfl).1 pingRead :=
    ⟨by decide +kernel, .ping [], rfl, rfl⟩
  exact ⟨_, _, h, run_control_frames_iff h (Mealy.Padded.after h (.insert hc (.nil _)))⟩

/-- A Ping before the hello, and one before the event. -/
theorem run_control_frames_lost : ∃ t tr,
    sample.run (accepting .hello) (acceptedRun ++ [eventRead]) = some (t, tr) ∧
      (sample.Padded ControlRead (accepting .hello) (acceptedRun ++ [eventRead])
          (pingRead :: (acceptedRun ++ [eventRead])) ∧
        observed (sample.emits (accepting .hello) (pingRead :: (acceptedRun ++ [eventRead]))) ≠
          observed tr) ∧
      sample.Padded ControlRead (accepting .hello) (acceptedRun ++ [eventRead])
          (acceptedRun ++ [pingRead, eventRead]) ∧
        observed (sample.emits (accepting .hello) (acceptedRun ++ [pingRead, eventRead])) ≠
          observed tr := by
  let r := sample.run (accepting .hello) acceptedRun
  have h : r = some (r.get rfl) := (Option.some_get rfl).symm
  let r' := sample.run (accepting .hello) (acceptedRun ++ [eventRead])
  have h' : r' = some (r'.get rfl) := rfl
  have hc : ControlRead (r.get rfl).1 pingRead :=
    ⟨by decide +kernel, .ping [], rfl, rfl⟩
  have hs : sample.Padded ControlRead (r.get rfl).1 [eventRead] [eventRead] :=
    .keep (o := ((sample.step (r.get rfl).1 eventRead).get rfl).2) rfl (.nil _)
  refine ⟨_, _, h', ⟨?_, ?_⟩, ?_, ?_⟩
  · exact .insert ⟨rfl, .ping [], rfl, rfl⟩ (Mealy.Padded.after h hs)
  · intro heq
    exact absurd (congrArg List.length heq) (by decide +kernel)
  · exact Mealy.Padded.after h (.insert hc hs)
  · intro heq
    exact absurd (congrArg List.length heq) (by decide +kernel)

end Serving

end NotifiTransport

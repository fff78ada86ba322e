import NotifiTransport.Client.Attempts
import NotifiTransport.Client.Shared
import NotifiTransport.Crypto.Ideal
import NotifiTransport.Frame.Postcard

/-! # Endpoint updates

The stored endpoint can differ from the one the loop acts on only while an `EndpointChanged`
is on its way to the loop, or after the loop has closed the socket. What breaks this is a
`try_send` that finds the channel full.
-/

namespace NotifiTransport

/-- The endpoint that the loop acts on, if there is one: that of the current attempt, backoff or
connection, and `none` in the wait for an endpoint. -/
def Phase.acting {snow : Snow} : Phase snow → Option (Option Text)
  | .parked => some none
  | .backoff url _ | .connecting url | .sendHello url | .awaitReply url | .versionRejected url
  | .noiseKeypair url | .noiseSendE url _ | .noiseAwait url _ | .noiseSendS url _
  | .authPayload url _ | .authSend url _ _ | .authAwait url _ _ _ | .authProcess url _
  | .terminal url | .online url _ => some (some url)
  | .top | .readUrl | .offline | .checkAuto | .manual | .stopped | .panicked => none

/-- The loop has closed the socket of the connection. -/
def Phase.closed {snow : Snow} : Phase snow → Bool
  | .online _ m => m.closed
  | _ => false

namespace MsgLoop

variable {snow : Snow} {pc : Postcard} {cfg : WsClientConfig} {now : ℕ} {m : MsgLoop snow}
  {i : Input} {r : Option (MsgLoop snow) × List Effect}

/-- The loop returns, or the socket stays closed if it was. -/
def StaysClosed (m : MsgLoop snow) (r : Option (MsgLoop snow) × List Effect) : Prop :=
  ∀ m', r.1 = some m' → m.closed → m'.closed

theorem StaysClosed.returns {o : List Effect} : StaysClosed m (none, o) := by
  rintro _ ⟨⟩

theorem StaysClosed.same {m' : MsgLoop snow} {o : List Effect} (h : m'.closed = m.closed) :
    StaysClosed m (some m', o) := by
  rintro _ ⟨⟩ hc
  rw [h, hc]

theorem staysClosed_pump (m : MsgLoop snow) : StaysClosed m (m.pump pc) := by
  rcases m.pump_cases pc with ⟨_, -, h⟩ | h | ⟨f, _, _, _, chunks, -, -, -, h⟩ <;> rw [h]
  · exact .same rfl
  · exact .returns
  · cases chunks <;> exact .same rfl

theorem staysClosed_onHeartbeat (m : MsgLoop snow) : StaysClosed m (m.onHeartbeat pc cfg now) := by
  rcases m.onHeartbeat_cases pc cfg now with
    h | h | ⟨_, _, _, -, -, ⟨_, -, h⟩ | ⟨chunks, -, h⟩⟩ <;> rw [h]
  · rintro _ ⟨⟩ -
    rfl
  · exact .same rfl
  · exact .same rfl
  · cases chunks <;> exact .same rfl

theorem step_staysClosed (h : m.step pc cfg now i = some r) : StaysClosed m r := by
  unfold step at h
  split at h
  · split at h <;> cases h
    · exact .returns
    · unfold onPacket
      dsimp only
      split
      · exact .returns
      · exact .same rfl
    · exact .returns
    · next c =>
      cases c with
      | send frame priority => exact staysClosed_pump _
      | endpointChanged | reconnect =>
        rintro _ ⟨⟩ -
        rfl
      | wakeUp => exact .same rfl
    · exact staysClosed_onHeartbeat m
  · next f rest _ =>
    split at h <;> cases h
    · cases rest <;> exact .same rfl
    · exact .returns
  · split at h <;> cases h
    · next c =>
      cases c with
      | endpointChanged | reconnect =>
        rintro _ ⟨⟩ -
        rfl
      | send | wakeUp => exact .same rfl
    · split
      · exact .same rfl
      · exact staysClosed_pump m
  · split at h <;> cases h
    exact .same rfl
  · next rest _ =>
    split at h <;> cases h
    · cases rest <;> exact .same rfl
    · exact .same rfl
  · split at h <;> cases h
    exact .returns

/-- The message loop closes the socket when it takes a control command. -/
theorem step_control {c : ClientCmd} (hc : Loop.isControl c)
    (h : m.step pc cfg now (.cmd c) = some r) :
    ∃ m', r = (some m', [.close]) ∧ m'.closed := by
  unfold step at h
  split at h <;> cases h <;> cases c <;> cases hc <;> exact ⟨_, rfl, rfl⟩

end MsgLoop

namespace Loop

variable {snow : Snow} {pc : Postcard} {cfg : WsClientConfig} {now : ℕ} {l : Loop snow}
  {i : Input} {r : Loop snow × List Effect} {a : Option Text}

theorem acting_onUrl {u : Option Text} (ha : (l.onUrl cfg now u).1.phase.acting = some a) :
    u = a := by
  unfold onUrl at ha
  split at ha
  · exact Option.some.inj ha
  · split at ha
    · cases ha
    · dsimp only at ha
      split at ha <;> exact Option.some.inj ha

theorem acting_onVersionReply {url : Text} {v : VersionReply}
    (ha : (l.onVersionReply cfg url v).1.phase.acting = some a) : some url = a := by
  cases v with
  | accepted | rejected => exact Option.some.inj ha
  | failed e => cases ha

theorem acting_authChunks {url : Text} {noise : NoiseSession snow} {chunks : List Bytes}
    (ha : (l.authChunks cfg now url noise chunks).1.phase.acting = some a) : some url = a := by
  unfold authChunks at ha
  split at ha <;> exact Option.some.inj ha

theorem acting_onAuthPayload {url : Text} {noise : NoiseSession snow} {p : Option Bytes}
    (ha : (l.onAuthPayload pc cfg now url noise p).1.phase.acting = some a) : some url = a := by
  unfold onAuthPayload at ha
  split at ha
  · exact Option.some.inj ha
  · dsimp only at ha
    split at ha
    · cases ha
    · split at ha
      · cases ha
      · exact acting_authChunks ha

theorem acting_onAuthItem {url : Text} {noise : NoiseSession snow} {acc : FrameAccumulator}
    {deadline : ℕ} {m : WsItem}
    (ha : (l.onAuthItem pc cfg url noise acc deadline m).1.phase.acting = some a) :
    some url = a := by
  unfold onAuthItem at ha
  split at ha
  · split at ha
    · cases ha
    · exact Option.some.inj ha
    · split at ha
      · exact Option.some.inj ha
      · cases ha
  · cases ha

/-- An attempt goes on with its endpoint. -/
theorem step_acting_attempt (hp : l.phase.attempting) (h : l.step pc cfg now i = some r)
    (ha : r.1.phase.acting = some a) : l.phase.acting = some a := by
  cases hl : l.phase <;> rw [hl] at hp <;> cases hp <;> simp only [step, hl] at h
  case awaitReply url =>
    split at h <;> cases h
    exact congrArg some (acting_onVersionReply ha)
  case authPayload url noise =>
    split at h <;> cases h
    exact congrArg some (acting_onAuthPayload ha)
  case authSend url noise rest =>
    split at h <;> cases h
    · exact congrArg some (acting_authChunks ha)
    · cases ha
  case authAwait url noise acc deadline =>
    split at h <;> cases h
    · exact congrArg some (acting_onAuthItem ha)
    · cases ha
  case authProcess url noise =>
    split at h <;> cases h
    next outcome =>
    cases outcome with
    | success | unauthorized => exact ha
    | failed | retryWithNewPayload => cases ha
  -- the other phases either go on or start over
  all_goals
    repeat' split at h
    all_goals cases h
    all_goals first
      | exact ha
      | cases ha

theorem wokenBy_endpointChanged (l : Loop snow) : l.wokenBy .endpointChanged := by
  unfold wokenBy
  split <;> rfl

/-- Between attempts the loop acts on the endpoint that it reads or waits with. -/
theorem Rested.acting (hr : Rested cfg now l i r) (ha : r.1.phase.acting = some a) :
    i = .url a ∨ l.phase.acting = some a ∧ ¬ l.phase.closed ∧ i ≠ .cmd .endpointChanged := by
  cases hr with
  | flag b | auto b => cases b <;> cases ha
  | endpoint u => exact Or.inl (congrArg Input.url (acting_onUrl ha))
  | idle hp hw =>
    refine Or.inr ⟨ha, ?_, ?_⟩
    · cases hl : l.phase <;> rw [hl] at hp <;> cases hp <;> exact Bool.false_ne_true
    · rintro ⟨⟩
      exact hw l.wokenBy_endpointChanged
  | woken =>
    rw [woken_phase] at ha
    cases ha
  | released => rcases l.released_phase with hn | ⟨hn, -⟩ <;> rw [hn] at ha <;> cases ha
  | elapsed hl =>
    rw [hl]
    exact Or.inr ⟨ha, Bool.false_ne_true, nofun⟩
  | disconnected => cases ha

/-- The loop has just read the endpoint it acts on, or acted on it before and has not taken an
`EndpointChanged` since, unless the socket is closed. -/
theorem step_acting (h : l.step pc cfg now i = some r) (ha : r.1.phase.acting = some a) :
    i = .url a ∨ l.phase.acting = some a ∧ (l.phase.closed → r.1.phase.closed) ∧
      (i = .cmd .endpointChanged → r.1.phase.closed) := by
  rcases step_cases h with ⟨hp, -⟩ | hr | ⟨url, m, s, hl, hs, -, ⟨-, hr⟩ | ⟨m', hm, hr⟩⟩
  · refine Or.inr ⟨step_acting_attempt hp h ha, ?_, ?_⟩
    · intro hc
      cases hl : l.phase <;> rw [hl] at hp hc <;> cases hp <;> cases hc
    · rintro rfl
      cases (step_cmd_of_attempting hp _).symm.trans h
  · rcases hr.acting ha with hi | ⟨hl, hc, hi⟩
    · exact Or.inl hi
    · exact Or.inr ⟨hl, fun h => absurd h hc, fun h => absurd h hi⟩
  · rw [hr] at ha
    cases ha
  · rw [hr] at ha ⊢
    rw [hl]
    refine Or.inr ⟨ha, MsgLoop.step_staysClosed hs m' hm, ?_⟩
    rintro rfl
    obtain ⟨m₁, rfl, hc⟩ := MsgLoop.step_control rfl hs
    cases hm
    exact hc

end Loop

namespace WsClient

variable {snow : Snow} {pc : Postcard} {cfg : WsClientConfig} {parses : Text → Bool}
  {w w' : WsClient snow} {es : List Event} {tr o : List Output} {e : Event}

/-- The loop acts on another endpoint than the stored one. -/
def Outdated (w : WsClient snow) : Prop :=
  ∃ a, w.loop.phase.acting = some a ∧ a ≠ w.url ∧ ¬ w.loop.phase.closed

/-- No endpoint update is lost. -/
def UpdateKept (w : WsClient snow) : Prop :=
  Outdated w → .endpointChanged ∈ w.queue ∨ .endpointChanged ∈ w.calls

/-- The update that this `try_send` announces reaches the loop: the channel has room, another
`EndpointChanged` is on its way, or the loop does not act on an outdated endpoint. -/
def Announced (cfg : WsClientConfig) (w : WsClient snow) : Event → Prop
  | .notify k => w.calls[k]? = some .endpointChanged → w.hasRoom cfg ∨ .endpointChanged ∈ w.queue ∨
      .endpointChanged ∈ w.calls.eraseIdx k ∨ ¬ Outdated w
  | _ => True

theorem Outdated.alive (h : Outdated w) : w.loop.alive := by
  obtain ⟨a, ha, -⟩ := h
  unfold Loop.alive
  split
  · next hp => simp [hp, Phase.acting] at ha
  · next hp => simp [hp, Phase.acting] at ha
  · rfl

theorem outdated_congr (hl : w'.loop = w.loop) (hu : w'.url = w.url) :
    Outdated w' ↔ Outdated w := by
  unfold Outdated
  rw [hl, hu]

/-- A step of the loop takes the update to the next read of the endpoint. -/
theorem stepLoop_updateKept {i : Input} (hw : UpdateKept w)
    (h : w.stepLoop pc cfg i = some (w', o)) : UpdateKept w' := by
  obtain ⟨ho, ⟨r, hr, hl⟩, hu, hc, sent, hq, -⟩ := stepLoop_shared h
  rintro ⟨a, ha, hne, hcl⟩
  rw [hl] at ha hcl
  rw [hu] at hne
  rw [hc, hq]
  rcases Loop.step_acting hr ha with rfl | ⟨ha', hcl', hi⟩
  · exact absurd (by simpa [offers] using ho) hne.symm
  · rcases hw ⟨a, ha', hne, fun hc => hcl (hcl' hc)⟩ with hmem | hmem
    · refine Or.inl (List.mem_append_left _ ?_)
      obtain ⟨q, ht, rfl | ⟨c, rfl, rfl⟩⟩ := w.take_eq i
      · rwa [ht]
      · -- the command that is taken is another one
        have hhead : w.queue.head? = some c := by simpa [offers] using ho
        rw [ht]
        rcases List.mem_cons.mp (List.cons_head?_tail hhead ▸ hmem) with rfl | hmem
        · exact absurd (hi rfl) hcl
        · exact hmem
    · exact Or.inr hmem

theorem notify_updateKept {k : ℕ} {c : ClientCmd} (hw : UpdateKept w) (hk : w.calls[k]? = some c) :
    UpdateKept (trySend cfg { w with calls := w.calls.eraseIdx k } c) ↔
      Announced cfg w (.notify k) := by
  have hcalls : ClientCmd.endpointChanged ∈ w.calls →
      c = .endpointChanged ∨ .endpointChanged ∈ w.calls.eraseIdx k := by
    intro hm
    obtain ⟨j, hj⟩ := List.mem_iff_getElem?.mp hm
    by_cases hjk : j = k
    · subst hjk
      rw [hj] at hk
      exact Or.inl (Option.some.inj hk).symm
    · exact Or.inr (List.mem_eraseIdx_iff_getElem?.mpr ⟨j, hjk, hj⟩)
  unfold trySend
  split
  · next hroom =>
    refine iff_of_true ?_ fun _ => Or.inl (Bool.and_eq_true_iff.mp hroom).2
    intro hout
    rcases hw hout with hm | hm
    · exact Or.inl (List.mem_append_left _ hm)
    · rcases hcalls hm with rfl | hm
      · exact Or.inl (by simp)
      · exact Or.inr hm
  · next hroom =>
    constructor
    · intro hkept _
      by_cases hout : Outdated w
      · exact Or.inr ((hkept hout).imp_right Or.inl)
      · exact Or.inr (Or.inr (Or.inr hout))
    · intro hann hout
      have hout' : Outdated w := hout
      rcases hw hout' with hm | hm
      · exact Or.inl hm
      · rcases hcalls hm with rfl | hm
        · rcases hann hk with hr | hm | hm | hn
          · exact absurd (Bool.and_eq_true_iff.mpr ⟨hout'.alive, hr⟩) hroom
          · exact Or.inl hm
          · exact Or.inr hm
          · exact absurd hout' hn
        · exact Or.inr hm

theorem step_updateKept (hw : UpdateKept w) (h : w.step pc cfg parses e = some (w', o)) :
    UpdateKept w' ↔ Announced cfg w e := by
  rcases step_shared h with
    ⟨i, rfl, hs⟩ | ⟨k, c, rfl, hk, rfl⟩ | ⟨hctl, hl, hq, hu, -⟩ | ⟨hne, -, hquiet⟩
  · exact iff_of_true (stepLoop_updateKept hw hs) trivial
  · exact notify_updateKept hw hk
  · refine iff_of_true ?_ (by cases e <;> trivial)
    intro hout
    rcases hu with ⟨hu, hc⟩ | hc
    · exact (hw ((outdated_congr hl hu).mp hout)).imp (fun hm => hq.subset hm)
        fun hm => hc.subset hm
    · exact Or.inr hc
  · have hann : Announced cfg w e := by
      cases e with
      | notify k => exact absurd rfl (hne k)
      | _ => trivial
    refine iff_of_true ?_ hann
    intro hout
    obtain ⟨sent, hq, -⟩ := hquiet.queue
    rw [hq, hquiet.calls]
    exact (hw ((outdated_congr hquiet.loop hquiet.url).mp hout)).imp_left (List.mem_append_left _)

theorem updateKept_new : UpdateKept (new : WsClient snow) := by
  rintro ⟨a, ha, -⟩
  cases ha

/-- No update is lost in a run exactly if every `EndpointChanged` of the run is announced. -/
theorem run_updateKept_iff (h : (machine pc cfg parses snow).run new es = some (w, tr)) :
    (∀ pre post, es = pre ++ post → ∀ m u, (machine pc cfg parses snow).run new pre = some (m, u) →
      UpdateKept m) ↔ (machine pc cfg parses snow).Along (Announced cfg) new es := by
  apply Mealy.run_always_iff updateKept_new ?_ h
  rintro pre e post rfl m u m' o - hm hs
  exact step_updateKept hm hs

/-- A client that waits for its endpoint, gets one, and dials. -/
def dialing (url : Text) : List Event :=
  [.loop (.cancelFlag false), .loop (.url none), .setEndpoint url, .notify 0,
    .loop (.cmd .endpointChanged), .loop (.cancelFlag false), .loop (.url (some url))]

/-- A client that gets another endpoint while it dials. -/
def redirected : List Event :=
  dialing "ws://a".toList ++ [.setEndpoint "ws://b".toList, .notify 0]

theorem run_updateKept_iff_redirected : ∃ w tr,
    (machine .wire .sample (fun _ => true) (Snow.ideal Ideal.genuine)).run new redirected =
        some (w, tr) ∧
      w.loop.phase.acting = some (some "ws://a".toList) ∧ w.url = some "ws://b".toList ∧
      UpdateKept w := by
  let M := machine .wire .sample (fun _ => true) (Snow.ideal Ideal.genuine)
  have h : M.run new redirected = some ((M.run new redirected).get rfl) :=
    (Option.some_get rfl).symm
  have hroom : ∀ n < 9, (M.run new (redirected.take n)).all (fun x => x.1.hasRoom .sample) := by
    decide +kernel
  have hG : M.Along (Announced .sample) new redirected := by
    intro pre e post hes m u hm
    have hlen : 9 = pre.length + (post.length + 1) := by
      rw [← List.length_cons, ← List.length_append, ← hes]
      rfl
    have hpre := hroom pre.length (by omega)
    rw [hes, List.take_left, hm] at hpre
    cases e with
    | notify k => exact fun _ => Or.inl hpre
    | _ => trivial
  exact ⟨_, _, h, rfl, rfl, (run_updateKept_iff h).mpr hG _ [] (List.append_nil _).symm _ _ h⟩

/-- `wake` fills the channel while nobody reads it. -/
theorem run_wakes (ha : w.loop.alive) (n : ℕ)
    (hn : w.queue.length + w.reserved + n ≤ cfg.bufferSize) :
    (machine pc cfg parses snow).run w (List.replicate n .wake) =
      some ({ w with queue := w.queue ++ List.replicate n .wakeUp }, []) := by
  induction n generalizing w with
  | zero => simp
  | succ n ih =>
    have hroom : w.hasRoom cfg := by
      unfold hasRoom
      exact decide_eq_true (by omega)
    have hs : w.step pc cfg parses .wake = some ({ w with queue := w.queue ++ [.wakeUp] }, []) := by
      simp only [step, trySend, ha, hroom, Bool.and_self, if_true]
    rw [List.replicate_succ, Mealy.run_cons]
    refine ⟨_, [], [], hs, ?_, rfl⟩
    have hlen : (w.queue ++ [ClientCmd.wakeUp]).length + w.reserved + n ≤ cfg.bufferSize := by
      rw [List.length_append, List.length_singleton]
      omega
    have hrun := ih (w := { w with queue := w.queue ++ [.wakeUp] }) ha hlen
    rwa [List.append_assoc, List.singleton_append, ← List.replicate_succ] at hrun

/-- A full channel does not take the update of a cleared endpoint. -/
theorem run_clear_full (hcalls : w.calls = [])
    (hfull : ¬ (w.loop.alive && w.hasRoom cfg) = true) :
    (machine pc cfg parses snow).run w [.clearEndpoint, .notify 0] =
      some ({ w with url := none }, []) := by
  have hdrop : ({ w with url := none, calls := [] } : WsClient snow).trySend cfg .endpointChanged =
      { w with url := none, calls := [] } := if_neg hfull
  have hnotify : w.clearEndpoint.step pc cfg parses (.notify 0) =
      some ({ w with url := none }, []) := by
    simp [step, clearEndpoint, hcalls, hdrop]
  refine Mealy.run_cons.mpr ⟨w.clearEndpoint, [], [], rfl, ?_, rfl⟩
  exact Mealy.run_cons.mpr ⟨{ w with url := none }, [], [], hnotify, rfl, rfl⟩

/-- With a channel that is full at the wrong moment the loop goes on to connect to an endpoint
that was cleared, and will not hear of it. -/
theorem run_update_lost : ∃ w tr,
    (machine .wire .sample (fun _ => true) (Snow.ideal Ideal.genuine)).run new
      (dialing "ws://a".toList ++ (List.replicate 100 .wake ++ [.clearEndpoint, .notify 0])) =
        some (w, tr) ∧
    w.loop.phase.acting = some (some "ws://a".toList) ∧ w.url = none ∧ w.calls = [] ∧
    ¬ UpdateKept w := by
  let M := machine .wire .sample (fun _ => true) (Snow.ideal Ideal.genuine)
  let w₀ := ((M.run new (dialing "ws://a".toList)).get rfl).1
  let w₁ := { w₀ with queue := List.replicate 100 .wakeUp }
  let w₂ := { w₁ with url := none }
  have hdial : M.run new (dialing "ws://a".toList) = some (w₀, _) := rfl
  have hfill : M.run w₀ (List.replicate 100 .wake) = some (w₁, []) := run_wakes rfl 100 le_rfl
  have hfull : ¬ ((w₁.loop.alive && w₁.hasRoom .sample) = true) := by decide
  have hclear : M.run w₁ [.clearEndpoint, .notify 0] = some (w₂, []) := run_clear_full rfl hfull
  refine ⟨w₂, _, Mealy.run_append.mpr ⟨w₀, _, _, hdial,
    Mealy.run_append.mpr ⟨w₁, _, _, hfill, hclear, rfl⟩, rfl⟩, rfl, rfl, rfl, fun hk => ?_⟩
  rcases hk ⟨_, rfl, by decide, by decide⟩ with hm | hm
  · cases List.eq_of_mem_replicate hm
  · cases hm

end WsClient

end NotifiTransport

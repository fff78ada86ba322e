import NotifiTransport.Client.AuthReply
import NotifiTransport.Client.Rejected
import NotifiTransport.Lib.Past

/-! # The transcript of an attempt

An attempt that goes online has read nothing since `Connecting` but what its handshakes and its
authentication ask for. So its inputs are known one by one: the session is the one of this socket's
Noise handshake, and the answer to the credentials is the frame that this session makes of the
packets read after them. Inside a client, moreover, no call is pending when the loop has left
`Online`.
-/

namespace NotifiTransport

def Effect.resumed? : Effect → Option Input
  | .resumed i => some i
  | _ => none

/-- Since the latest `Connecting` the loop has read `is` and handed the responses `ps` to
`process_auth_response`. -/
def Transcript (is : List Input) (ps : List Bytes) (tr : List Effect) : Prop :=
  ∃ before seg, tr = before ++ .publish .connecting :: seg ∧ .publish .connecting ∉ seg ∧
    seg.filterMap Effect.resumed? = is ∧ processed seg = ps

theorem Transcript.extend {is : List Input} {ps : List Bytes} {tr o : List Effect}
    (h : Transcript is ps tr) (ho : .publish .connecting ∉ o) :
    Transcript (is ++ o.filterMap Effect.resumed?) (ps ++ processed o) (tr ++ o) := by
  obtain ⟨before, seg, rfl, hseg, rfl, rfl⟩ := h
  refine ⟨before, seg ++ o, by simp, by simp [hseg, ho], by simp, processed_append _ _⟩

theorem Transcript.dial {url : Text} {tr o : List Effect}
    (h : [.publish .connecting, .dial url] <:+ o) : Transcript [] [] (tr ++ o) := by
  obtain ⟨before, rfl⟩ := h
  exact ⟨tr ++ before, [.dial url], by simp, by simp, rfl, rfl⟩

/-- The socket is open and the server has accepted the version. -/
def opened (reply : Text) : List Input :=
  [.connected (.ok ()), .sent (.ok ()), .next (some (.ok (.text reply)))]

section

variable {snow : Snow} (pc : Postcard) (cfg : WsClientConfig)

/-- Both handshakes have succeeded on these inputs, and the second has left this session. -/
def Handshaken (noise : NoiseSession snow) (is : List Input) : Prop :=
  ∃ reply keypair item, protocolAccepted <:+: reply ∧
    handleNoiseHandshake snow cfg.noiseServerKey keypair
      ⟨fun _ => .ok (), fun _ => item, fun _ => .ok ()⟩ = .ok noise ∧
    is = opened reply ++ [.keypair keypair, .sent (.ok ()), .next item, .sent (.ok ())]

/-- The credentials are on their way, and `left` of their packets are not confirmed yet. -/
def CredentialsSent (noise noise' : NoiseSession snow) (left : ℕ) (is : List Input) : Prop :=
  ∃ p encoded chunks n, encodeFrame pc ⟨1, .message, p⟩ = .ok encoded ∧
    noise.encryptChunked encoded = (noise', .ok chunks) ∧ n + left = chunks.length ∧
    is = .authPayload (some p) :: List.replicate n (.sent (.ok ()))

/-- The results of `ws.next()` that bring these packets. -/
def packetItems (cs : List Bytes) : List WsItem := cs.map fun c => some (.ok (.binary c))

/-- The authentication has succeeded on these inputs, after `process_auth_response` was called with
these responses. -/
inductive Authenticated (noise : NoiseSession snow) : List Input → List Bytes → Prop where
  | skipped : Authenticated noise [.authPayload none] []
  | answered {is : List Input} {cs : List Bytes} {f : Frame} {noise₁ noise₂ : NoiseSession snow} :
    CredentialsSent pc noise noise₁ 0 is →
    recvOneFrame pc noise₁ .new cfg.maxPayloadBytes (packetItems cs) = some (noise₂, .ok f) →
    f.id = 1 → Authenticated noise (is ++ packetInputs cs ++ [.authOutcome .success]) [f.data]

end

namespace Loop

variable {snow : Snow} {pc : Postcard} {cfg : WsClientConfig} {now : ℕ} {l : Loop snow}
  {i : Input} {is js : List Input} {ps : List Bytes} {tr o u v : List Effect}
  {r : Loop snow × List Effect} {noise noise₁ noise' : NoiseSession snow} {acc : FrameAccumulator}
  {cs : List Bytes}

variable (pc cfg) in
/-- What an attempt in this phase has read since `Connecting`. -/
def Transcribed (tr : List Effect) : Phase snow → Prop
  | .connecting _ => Transcript [] [] tr
  | .sendHello _ => Transcript [.connected (.ok ())] [] tr
  | .awaitReply _ => Transcript [.connected (.ok ()), .sent (.ok ())] [] tr
  | .noiseKeypair _ => ∃ reply, protocolAccepted <:+: reply ∧ Transcript (opened reply) [] tr
  | .noiseSendE _ noise => ∃ reply kp e, protocolAccepted <:+: reply ∧
    noiseStart snow cfg.noiseServerKey kp = .ok (noise, e) ∧
    Transcript (opened reply ++ [.keypair kp]) [] tr
  | .noiseAwait _ noise => ∃ reply kp e, protocolAccepted <:+: reply ∧
    noiseStart snow cfg.noiseServerKey kp = .ok (noise, e) ∧
    Transcript (opened reply ++ [.keypair kp, .sent (.ok ())]) [] tr
  | .noiseSendS _ noise => ∃ reply kp noise₁ e item s, protocolAccepted <:+: reply ∧
    noiseStart snow cfg.noiseServerKey kp = .ok (noise₁, e) ∧
    noiseReply noise₁ item = .ok (noise, s) ∧
    Transcript (opened reply ++ [.keypair kp, .sent (.ok ()), .next item]) [] tr
  | .authPayload _ noise => ∃ is, Handshaken cfg noise is ∧ Transcript is [] tr
  | .authSend _ noise rest => ∃ noise₀ is js, Handshaken cfg noise₀ is ∧
    CredentialsSent pc noise₀ noise (rest.length + 1) js ∧ Transcript (is ++ js) [] tr
  | .authAwait _ noise acc _ => ∃ noise₀ noise₁ is js cs, Handshaken cfg noise₀ is ∧
    CredentialsSent pc noise₀ noise₁ 0 js ∧
    (∀ rest, recvOneFrame pc noise₁ .new cfg.maxPayloadBytes (packetItems cs ++ rest) =
      recvOneFrame pc noise acc cfg.maxPayloadBytes rest) ∧
    Transcript (is ++ (js ++ packetInputs cs)) [] tr
  | .authProcess _ noise => ∃ noise₀ noise₁ is js cs f, Handshaken cfg noise₀ is ∧
    CredentialsSent pc noise₀ noise₁ 0 js ∧
    recvOneFrame pc noise₁ .new cfg.maxPayloadBytes (packetItems cs) = some (noise, .ok f) ∧
    f.id = 1 ∧ Transcript (is ++ (js ++ packetInputs cs)) [f.data] tr
  | _ => True

theorem transcribed_onUrl (tr : List Effect) (u : Option Text) :
    Transcribed pc cfg (tr ++ .resumed (.url u) :: (l.onUrl cfg now u).2)
      (l.onUrl cfg now u).1.phase := by
  rcases l.onUrl_cases cfg now u with
    ⟨-, hu⟩ | ⟨url, -, ⟨-, hu⟩ | ⟨delay, -, ⟨-, hu⟩ | ⟨-, hu⟩⟩⟩ <;> rw [hu]
  · trivial
  · trivial
  · trivial
  · exact Transcript.dial ⟨[_, _], rfl⟩

/-- Between attempts only a dial begins a transcript. -/
theorem Rested.transcribed (hr : Rested cfg now l i r) :
    Transcribed pc cfg (tr ++ .resumed i :: r.2) r.1.phase := by
  cases hr with
  | flag b | auto b => cases b <;> trivial
  | endpoint u => exact transcribed_onUrl tr u
  | idle hp => cases hl : l.phase <;> rw [hl] at hp <;> cases hp <;> trivial
  | woken =>
    rw [woken_phase]
    trivial
  | released => rcases l.released_phase with hn | ⟨hn, -⟩ <;> rw [hn] <;> trivial
  | elapsed => exact Transcript.dial ⟨[_], rfl⟩
  | disconnected => trivial

theorem CredentialsSent.confirm {n : ℕ} (h : CredentialsSent pc noise noise₁ (n + 1) js) :
    CredentialsSent pc noise noise₁ n (js ++ [.sent (.ok ())]) := by
  obtain ⟨p, encoded, chunks, k, he, hc, hn, rfl⟩ := h
  refine ⟨p, encoded, chunks, k + 1, he, hc, by omega, ?_⟩
  rw [List.replicate_succ', List.cons_append]

/-- The packets of the credentials that are left to be confirmed are those left to be written. -/
theorem transcribed_authChunks {url : Text} {noise₀ : NoiseSession snow} (chunks : List Bytes)
    (hh : Handshaken cfg noise₀ is) (hc : CredentialsSent pc noise₀ noise chunks.length js)
    (ht : Transcript (is ++ js) [] tr) :
    Transcribed pc cfg (tr ++ (l.authChunks cfg now url noise chunks).2)
      (l.authChunks cfg now url noise chunks).1.phase := by
  cases chunks with
  | nil =>
    refine ⟨noise₀, noise, is, js, [], hh, hc, fun rest => rfl, ?_⟩
    simpa [authChunks, packetInputs] using ht
  | cons c chunks =>
    have ht' := ht.extend (o := [.send (.binary c)]) (by simp)
    simp only [Effect.resumed?, processed, Effect.processed?, List.filterMap_cons,
      List.filterMap_nil, List.append_nil] at ht'
    exact ⟨noise₀, is, js, hh, hc, ht'⟩

theorem transcribed_onAuthPayload {url : Text} (hh : Handshaken cfg noise is)
    (ht : Transcript is [] tr) (p : Option Bytes) :
    Transcribed pc cfg
      (tr ++ .resumed (.authPayload p) :: (l.onAuthPayload pc cfg now url noise p).2)
      (l.onAuthPayload pc cfg now url noise p).1.phase := by
  unfold onAuthPayload
  split
  · trivial
  · next p =>
    dsimp only
    split
    · trivial
    · next encoded he =>
      split
      · trivial
      · next noise' chunks hc =>
        have ht' : Transcript (is ++ [.authPayload (some p)]) []
            (tr ++ [.resumed (.authPayload (some p)), .publish .waitingForAuth]) :=
          ht.extend (by simp)
        have hs : CredentialsSent pc noise noise' chunks.length [.authPayload (some p)] :=
          ⟨p, encoded, chunks, 0, he, hc, Nat.zero_add _, rfl⟩
        simpa using transcribed_authChunks chunks hh hs ht'

theorem recvOneFrame_extend {maxBytes : ℕ} {c : Bytes} {f : Option Frame}
    {acc' : FrameAccumulator} (hr : receive pc noise acc c maxBytes = .ok (noise', acc', f))
    (hi : ∀ rest, recvOneFrame pc noise₁ .new maxBytes (packetItems cs ++ rest) =
      recvOneFrame pc noise acc maxBytes rest) (rest : List WsItem) :
    recvOneFrame pc noise₁ .new maxBytes (packetItems (cs ++ [c]) ++ rest) =
      match f with
      | none => recvOneFrame pc noise' acc' maxBytes rest
      | some f => some (noise', .ok f) := by
  have hsplit : packetItems (cs ++ [c]) ++ rest =
      packetItems cs ++ some (.ok (.binary c)) :: rest := by simp [packetItems]
  rw [hsplit, hi]
  cases f <;> simp [recvOneFrame, hr]

theorem transcribed_onAuthItem {url : Text} {noise₀ : NoiseSession snow} {deadline : ℕ}
    (hh : Handshaken cfg noise₀ is) (hc : CredentialsSent pc noise₀ noise₁ 0 js)
    (hi : ∀ rest, recvOneFrame pc noise₁ .new cfg.maxPayloadBytes (packetItems cs ++ rest) =
      recvOneFrame pc noise acc cfg.maxPayloadBytes rest)
    (ht : Transcript (is ++ (js ++ packetInputs cs)) [] tr) (m : WsItem) :
    Transcribed pc cfg
      (tr ++ .resumed (.next m) :: (l.onAuthItem pc cfg url noise acc deadline m).2)
      (l.onAuthItem pc cfg url noise acc deadline m).1.phase := by
  unfold onAuthItem
  split
  · next data =>
    have hin : is ++ (js ++ packetInputs cs) ++ [.next (some (.ok (.binary data)))] =
        is ++ (js ++ packetInputs (cs ++ [data])) := by simp [packetInputs]
    split
    · trivial
    · next noise' acc' hr =>
      refine ⟨noise₀, noise₁, is, js, cs ++ [data], hh, hc, recvOneFrame_extend hr hi, ?_⟩
      rw [← hin]
      exact ht.extend (by simp)
    · next noise' acc' f hr =>
      have hf := recvOneFrame_extend hr hi []
      rw [List.append_nil] at hf
      split
      · next hid =>
        refine ⟨noise₀, noise₁, is, js, cs ++ [data], f, hh, hc, hf, hid, ?_⟩
        rw [← hin]
        exact ht.extend (by simp)
      · trivial
  · trivial

/-- A step of an attempt adds its input to the transcript. -/
theorem step_transcribed_attempt (hp : l.phase.attempting) (h : l.step pc cfg now i = some r)
    (hg : Transcribed pc cfg tr l.phase) :
    Transcribed pc cfg (tr ++ .resumed i :: r.2) r.1.phase := by
  cases hl : l.phase <;> rw [hl] at hp <;> cases hp <;> simp only [step, hl] at h hg
  case connecting =>
    split at h <;> cases h
    · exact Transcript.extend hg (by simp)
    · trivial
  case sendHello url =>
    split at h <;> cases h
    · exact Transcript.extend hg (by simp)
    · trivial
  case awaitReply url =>
    split at h <;> cases h
    unfold onVersionReply
    split
    · next hm =>
      obtain ⟨reply, rfl, hr⟩ := versionReply_accepted hm
      exact ⟨reply, hr, Transcript.extend hg (by simp)⟩
    · trivial
    · trivial
  case noiseKeypair url =>
    obtain ⟨reply, hr, ht⟩ := hg
    split at h
    · split at h <;> cases h
      · trivial
      · next kp _ noise e hs => exact ⟨reply, kp, e, hr, hs, ht.extend (by simp)⟩
    · cases h
  case noiseSendE url noise =>
    obtain ⟨reply, kp, e, hr, hs, ht⟩ := hg
    split at h <;> cases h
    · exact ⟨reply, kp, e, hr, hs, ht.extend (by simp)⟩
    · trivial
  case noiseAwait url noise =>
    obtain ⟨reply, kp, e, hr, hs, ht⟩ := hg
    split at h
    · split at h <;> cases h
      · trivial
      · next item _ noise' s hm =>
        exact ⟨reply, kp, noise, e, item, s, hr, hs, hm, ht.extend (by simp)⟩
    · cases h
  case noiseSendS url noise =>
    obtain ⟨reply, kp, noise₁, e, item, s, hr, hs, hm, ht⟩ := hg
    split at h
    · split at h <;> cases h
      · trivial
      · next noise' hf =>
        have hn : handleNoiseHandshake snow cfg.noiseServerKey kp
            ⟨fun _ => .ok (), fun _ => item, fun _ => .ok ()⟩ = .ok noise' := by
          simp [handleNoiseHandshake, hs, hm, hf, bind, Except.bind, Except.mapError]
        exact ⟨_, ⟨reply, kp, item, hr, hn, rfl⟩, ht.extend (by simp)⟩
    · cases h
      trivial
    · cases h
  case authPayload url noise =>
    obtain ⟨is, hh, ht⟩ := hg
    split at h <;> cases h
    exact transcribed_onAuthPayload hh ht _
  case authSend url noise rest =>
    obtain ⟨noise₀, is, js, hh, hc, ht⟩ := hg
    split at h <;> cases h
    · have ht' : Transcript (is ++ (js ++ [.sent (.ok ())])) []
          (tr ++ [.resumed (.sent (.ok ()))]) := by
        rw [← List.append_assoc]
        exact ht.extend (by simp)
      simpa using transcribed_authChunks rest hh (CredentialsSent.confirm hc) ht'
    · trivial
  case authAwait url noise acc deadline =>
    obtain ⟨noise₀, noise₁, is, js, cs, hh, hc, hi, ht⟩ := hg
    split at h <;> cases h
    · exact transcribed_onAuthItem hh hc hi ht _
    · trivial
  case authProcess url noise =>
    split at h <;> cases h
    next outcome => cases outcome <;> trivial

theorem step_transcribed (h : l.step pc cfg now i = some r)
    (hg : Transcribed pc cfg tr l.phase) :
    Transcribed pc cfg (tr ++ .resumed i :: r.2) r.1.phase := by
  rcases step_cases h with ⟨hp, -⟩ | hr | ⟨url, m, s, -, -, -, ⟨-, hr⟩ | ⟨m', -, hr⟩⟩
  · exact step_transcribed_attempt hp h hg
  · exact hr.transcribed
  · rw [hr]
    trivial
  · rw [hr]
    trivial

theorem run_transcribed {is : List (ℕ × Input)}
    (h : (machine pc cfg snow).run init is = some (l, tr)) : Transcribed pc cfg tr l.phase := by
  refine Mealy.run_induction (P := fun _ tr l => Transcribed pc cfg tr l.phase)
    (show Transcribed pc cfg [] (init : Loop snow).phase from trivial) ?_ h
  rintro is tr l i l' o - hg hs
  obtain ⟨r, hr, rfl, rfl⟩ := machine_step.mp hs
  exact step_transcribed hr hg

/-- Whenever `Online` is published, the handshakes and the authentication have succeeded on what
this socket has given since `Connecting`. -/
theorem run_online_transcript {is : List (ℕ × Input)}
    (h : (machine pc cfg snow).run init is = some (l, u ++ .publish .online :: v)) :
    ∃ (noise : NoiseSession snow) (hs auth : List Input) (ps : List Bytes),
      Handshaken cfg noise hs ∧ Authenticated pc cfg noise auth ps ∧
      Transcript (hs ++ auth) ps u := by
  obtain ⟨pre, m, tr, i, hr, rfl, hfrom⟩ := run_entersOnline h
  have hg := run_transcribed hr
  rcases hfrom with ⟨url, noise, hp, hi⟩ | ⟨url, noise, hp, hi⟩ <;> rw [hp] at hg <;> rw [hi]
  · obtain ⟨is, hh, ht⟩ := hg
    exact ⟨noise, is, _, _, hh, .skipped, ht.extend (by simp)⟩
  · obtain ⟨noise₀, noise₁, is, js, cs, f, hh, hc, hf, hid, ht⟩ := hg
    refine ⟨noise₀, is, _, _, hh, .answered hc hf hid, ?_⟩
    rw [← List.append_assoc]
    exact ht.extend (by simp)

end Loop

namespace WsClient

variable {snow : Snow} {pc : Postcard} {cfg : WsClientConfig} {parses : Text → Bool}
  {m w w' : WsClient snow} {e : Event} {es : List Event} {tr u v o : List Output}

/-- The loop is in the message loop, or has just come out of it. -/
def InSession (w : WsClient snow) : Prop :=
  w.loop.phase = .offline ∨ ∃ url m, w.loop.phase = .online url m

/-- `Online` is published by the step that enters the message loop. -/
theorem step_goesOnline (h : w.step pc cfg parses e = some (w', o))
    (ho : .loop (.publish .online) ∈ o) :
    ∃ i, o = [.loop (.resumed i), .loop (.publish .online)] ∧ InSession w' ∧ ¬ InSession w := by
  obtain ⟨i, rfl, hs⟩ := step_loop h ho
  obtain ⟨-, r, hr, rfl, rfl⟩ := stepLoop_eq_some.mp hs
  have hmem : .publish .online ∈ r.2 := by
    have hm := mem_loop?.mpr ho
    rw [List.filterMap_cons, loop?_reactAll] at hm
    simpa [Output.loop?] using hm
  obtain ⟨⟨url, noise, rfl⟩, hfrom⟩ := Loop.step_online hr hmem
  refine ⟨i, rfl, Or.inr ⟨url, MsgLoop.start cfg w.now noise, ?_⟩, ?_⟩
  · obtain ⟨q, hq, -⟩ := w.resume_eq i (Loop.goOnline cfg w.now url noise).1
    exact congrArg (·.loop.phase) hq
  · rcases hfrom with ⟨url, noise, hp, -⟩ | ⟨url, noise, hp, -⟩ <;> simp [InSession, hp]

/-- A run that publishes `Online` takes a step into the message loop there. -/
theorem run_goesOnline
    (h : (machine pc cfg parses snow).run new es =
      some (w, u ++ .loop (.publish .online) :: v)) :
    ∃ pre e post m m' i u₀, es = pre ++ e :: post ∧ u = u₀ ++ [.loop (.resumed i)] ∧
      (machine pc cfg parses snow).run new pre = some (m, u₀) ∧ ¬ InSession m ∧
      (machine pc cfg parses snow).run new (pre ++ [e]) =
        some (m', u ++ [.loop (.publish .online)]) ∧ InSession m' ∧
      (machine pc cfg parses snow).run m' post = some (w, v) := by
  obtain ⟨pre, e, post, m, u₀, m', o₁, o₂, rfl, hr, hs, rfl⟩ := Mealy.run_split h
  obtain ⟨i, ho, hm', hm⟩ := step_goesOnline hs (by simp)
  obtain ⟨rfl, rfl⟩ : o₁ = [.loop (.resumed i)] ∧ o₂ = [] := by
    rcases o₁ with _ | ⟨x, _ | ⟨y, o₁⟩⟩
    · cases ho
    · cases ho
      exact ⟨rfl, rfl⟩
    · simp at ho
  have hr' := Mealy.run_concat.mpr ⟨m, u₀, _, hr, hs, rfl⟩
  rw [List.append_cons] at h
  obtain ⟨v', hrest, hv⟩ := Mealy.run_rest h hr'
  obtain rfl : v = v' := by simpa using hv
  exact ⟨pre, e, post, m, m', i, u₀, rfl, rfl, hr, hm, by simpa using hr', hm', hrest⟩

/-- The loop goes on from `Online` only by winding the connection up. -/
theorem InSession.step (hw : InSession w) (h : w.step pc cfg parses e = some (w', o)) :
    InSession w' ∨
      [.loop (.publish .disconnected), .loop .clearPending] <:+ o ∧ w'.pending = ∅ := by
  rcases step_loop_cases h with ⟨hl, -, -⟩ | ⟨i, r, rfl, -, hr, hl, -⟩
  · unfold InSession
    rw [hl]
    exact Or.inl hw
  · rcases hw with hp | ⟨url, m, hp⟩ <;> simp only [Loop.step, hp] at hr
    · split at hr <;> cases hr
      obtain ⟨-, r, hr, rfl, rfl⟩ := stepLoop_eq_some.mp h
      simp only [Loop.step, hp] at hr
      cases hr
      refine Or.inr ⟨⟨[.loop (.resumed .proceed)], rfl⟩, ?_⟩
      exact reactAll_clearPending _ [.publish .disconnected]
    · obtain ⟨⟨next, x⟩, -, rfl⟩ := Option.map_eq_some_iff.mp hr
      apply Or.inl
      unfold InSession
      rw [hl]
      cases next with
      | none => exact Or.inl rfl
      | some m => exact Or.inr ⟨url, m, rfl⟩

/-- A run that leaves the connection is at some point just past the winding up. -/
theorem InSession.run (hm : InSession m)
    (h : (machine pc cfg parses snow).run m es = some (w, tr)) (hw : ¬ InSession w) :
    ∃ es₁ es₂ w₁ tr₁ tr₂, es = es₁ ++ es₂ ∧ tr = tr₁ ++ tr₂ ∧
      (machine pc cfg parses snow).run m es₁ = some (w₁, tr₁) ∧
      [.loop (.publish .disconnected), .loop .clearPending] <:+ tr₁ ∧ w₁.pending = ∅ := by
  induction es generalizing m tr with
  | nil =>
    obtain ⟨rfl, -⟩ := Mealy.run_nil.mp h
    exact absurd hm hw
  | cons e es ih =>
    obtain ⟨m', o, v, hs, hr, rfl⟩ := Mealy.run_cons.mp h
    rcases hm.step hs with hm' | ⟨ho, hp⟩
    · obtain ⟨es₁, es₂, w₁, tr₁, tr₂, rfl, rfl, hr₁, hsuf, hp⟩ := ih hm' hr
      refine ⟨e :: es₁, es₂, w₁, o ++ tr₁, tr₂, rfl, by simp, ?_, ?_, hp⟩
      · exact Mealy.run_cons.mpr ⟨m', o, tr₁, hs, hr₁, rfl⟩
      · exact hsuf.trans (List.suffix_append o tr₁)
    · refine ⟨[e], es, m', o, v, rfl, rfl, ?_, ho, hp⟩
      exact Mealy.run_cons.mpr ⟨m', o, [], hs, rfl, (List.append_nil o).symm⟩

/-- A client publishes `Online` only after the transcript of an attempt that has succeeded, and
between two publications `Disconnected` is published and no call is left in `pending`. -/
theorem run_online_transcript
    (h : (machine pc cfg parses snow).run new es =
      some (w, u ++ .loop (.publish .online) :: v)) :
    (∃ (noise : NoiseSession snow) (hs auth : List Input) (ps : List Bytes),
      Handshaken cfg noise hs ∧ Authenticated pc cfg noise auth ps ∧
        Transcript (hs ++ auth) ps (u.filterMap Output.loop?)) ∧
    ∀ a b, u = a ++ .loop (.publish .online) :: b → ∃ es₁ es₂ w₁ b₁ b₂, es = es₁ ++ es₂ ∧
      b = b₁ ++ b₂ ∧ (machine pc cfg parses snow).run new es₁ =
        some (w₁, a ++ .loop (.publish .online) :: b₁) ∧
      [.loop (.publish .disconnected), .loop .clearPending] <:+ b₁ ∧ w₁.pending = ∅ := by
  constructor
  · obtain ⟨is, hr⟩ := run_simulates h
    rw [List.filterMap_append] at hr
    exact Loop.run_online_transcript hr
  · rintro a b rfl
    obtain ⟨pre, e, post, m, -, i, u₀, rfl, hu, hr, hm, -⟩ := run_goesOnline h
    obtain ⟨b, rfl, rfl⟩ := (Trace.concat_eq_split.mp hu.symm).resolve_left (by simp)
    obtain ⟨pre₁, e₁, post₁, -, m₁, -, -, rfl, -, -, -, hr₁, hin, hrest⟩ := run_goesOnline hr
    obtain ⟨es₁, es₂, w₁, b₁, b₂, rfl, rfl, hrun, hsuf, hp⟩ := hin.run hrest hm
    refine ⟨pre₁ ++ [e₁] ++ es₁, es₂ ++ e :: post, w₁, b₁, b₂ ++ [.loop (.resumed i)], by simp,
      by simp, ?_, hsuf, hp⟩
    exact Mealy.run_append.mpr ⟨m₁, _, b₁, hr₁, hrun, by simp⟩

end WsClient

end NotifiTransport

import NotifiTransport.Client.Connection
import NotifiTransport.Client.Inbound

/-! # The answer to the credentials

After the credentials `handle_auth` reads one frame, and that frame has to be the answer. The server
session is live by then: its heartbeat and its events use the same socket, and whichever frame comes
first is taken for the answer.
-/

namespace NotifiTransport

def Effect.processed? : Effect → Option Bytes
  | .process response => some response
  | _ => none

/-- The calls of `process_auth_response` in a trace. -/
def processed (tr : List Effect) : List Bytes := tr.filterMap Effect.processed?

theorem processed_append (tr tr' : List Effect) :
    processed (tr ++ tr') = processed tr ++ processed tr' :=
  List.filterMap_append

/-- The results of `ws.next()` when these packets arrive. -/
def packetInputs (cs : List Bytes) : List Input := cs.map fun c => .next (some (.ok (.binary c)))

/-- Each group of packets is one complete frame for the reader with this session. -/
inductive Arrives {snow : Snow} (pc : Postcard) (maxBytes : ℕ) :
    NoiseSession snow → List (List Bytes) → List Frame → Prop where
  | nil (b : NoiseSession snow) : Arrives pc maxBytes b [] []
  | cons {b b' : NoiseSession snow} {cs ps : List Bytes} {groups : List (List Bytes)} {f : Frame}
      {fs : List Frame} : NoiseSession.Reads b cs ps b' → Assembles pc maxBytes f .new ps →
      Arrives pc maxBytes b' groups fs → Arrives pc maxBytes b (cs :: groups) (f :: fs)

/-- The frames that a peer sends arrive one by one. -/
theorem exists_arrives {snow : Snow} {pc : Postcard} {maxBytes : ℕ} {fs : List Frame}
    {a b : NoiseSession snow} {R : snow.Transport → snow.Transport → Prop} (hR : Paired snow R)
    (hpc : pc.Lawful)
    (hb : ∀ f ∈ fs, ∃ p, pc.toStdvec f = .ok p ∧ p.length < 2 ^ 32 ∧ p.length ≤ maxBytes)
    (h : NoiseSession.Peers R a b) :
    ∃ groups a', sendFrames pc a fs = (a', .ok groups.flatten) ∧
      Arrives pc maxBytes b groups fs := by
  induction fs generalizing a b with
  | nil => exact ⟨[], a, rfl, .nil b⟩
  | cons f fs ih =>
    obtain ⟨p, hp, hlt, hle⟩ := hb f List.mem_cons_self
    obtain ⟨cs, a₁, b₁, hs, hr, h₁⟩ := h.encryptChunked hR (toLE32 p.length ++ p)
    obtain ⟨groups, a₂, hs', harr⟩ := ih (fun g hg => hb g (List.mem_cons_of_mem _ hg)) h₁
    refine ⟨cs :: groups, a₂, ?_, ?_⟩
    · rw [List.flatten_cons]
      exact sendFrames_cons hp hs hs'
    · exact .cons hr (assembles_pieces (hpc.decodeFrame_payload hp) hlt hle rfl) harr

namespace Loop

variable {snow : Snow} {pc : Postcard} {cfg : WsClientConfig} {l l' : Loop snow} {url : Text}
  {b b' : NoiseSession snow} {acc acc' : FrameAccumulator} {deadline now : ℕ} {f resp : Frame}
  {cs ps q : List Bytes} {c p : Bytes} {is : List (ℕ × Input)} {tr : List Effect}
  {pre : List Frame} {groups : List (List Bytes)}

/-- A packet that does not complete the frame keeps `recv_one_frame` waiting. -/
theorem step_authAwait_more (cfg : WsClientConfig) (now : ℕ)
    (hl : l.phase = .authAwait url b acc deadline)
    (hc : b.readMessage c c.length = (b', .ok p))
    (hm : absorb pc acc p cfg.maxPayloadBytes = .ok (acc', none)) :
    l.step pc cfg now (.next (some (.ok (.binary c)))) =
      some (l.goto (.authAwait url b' acc' deadline), []) := by
  simp only [step, hl, onAuthItem, receive_of_read hc hm]

/-- The packet that completes the frame: its id decides, whatever its kind. -/
theorem step_authAwait_last (cfg : WsClientConfig) (now : ℕ)
    (hl : l.phase = .authAwait url b acc deadline)
    (hc : b.readMessage c c.length = (b', .ok p))
    (hm : absorb pc acc p cfg.maxPayloadBytes = .ok (acc', some f)) :
    l.step pc cfg now (.next (some (.ok (.binary c)))) =
      some (if f.id = 1 then (l.goto (.authProcess url b'), [.authFrame f, .process f.data])
        else l.authFailed .connectionClosed) := by
  simp only [step, hl, onAuthItem, receive_of_read hc hm]

/-- The packets of one frame: `process_auth_response` gets its data, or the attempt fails. -/
theorem run_authAwait (hr : NoiseSession.Reads b cs ps b')
    (h : Assembles pc cfg.maxPayloadBytes f acc ps)
    (hl : l.phase = .authAwait url b acc deadline) (his : is.map Prod.snd = packetInputs cs) :
    ∃ l' tr, (machine pc cfg snow).run l is = some (l', tr) ∧
      if f.id = 1 then l'.phase = .authProcess url b' ∧ processed tr = [f.data]
      else l'.phase = .top ∧ processed tr = [] := by
  induction hr generalizing l acc is with
  | nil b => cases h
  | @cons b b₁ b' c p cs ps hc hrest ih =>
    obtain ⟨⟨t, i⟩, is, rfl⟩ := List.exists_cons_of_ne_nil (l := is) (by
      rintro rfl
      simp [packetInputs] at his)
    obtain ⟨hi, his'⟩ := List.cons.inj his
    obtain rfl : i = .next (some (.ok (.binary c))) := hi
    cases h with
    | last hm =>
      cases hrest
      obtain rfl : is = [] := by simpa using his'
      have hs := step_authAwait_last cfg t hl hc hm
      refine ⟨_, _, Mealy.run_cons.mpr ⟨_, _, [], by simp only [machine, hs]; rfl, rfl, rfl⟩, ?_⟩
      split
      · exact ⟨rfl, rfl⟩
      · exact ⟨rfl, rfl⟩
    | more hm hrest' =>
      have hs := step_authAwait_more cfg t hl hc hm
      obtain ⟨l', tr, hrun, hend⟩ :=
        ih (l := l.goto (.authAwait url b₁ _ deadline)) hrest' rfl his'
      refine ⟨l', [.resumed (.next (some (.ok (.binary c))))] ++ tr,
        Mealy.run_cons.mpr ⟨_, _, tr, by simp only [machine, hs]; rfl, hrun, rfl⟩, ?_⟩
      rw [processed_append]
      exact hend

/-- Before the last packet of the frame the loop still waits. -/
theorem phase_of_prefix (hr : NoiseSession.Reads b cs ps b')
    (h : Assembles pc cfg.maxPayloadBytes f acc ps)
    (hl : l.phase = .authAwait url b acc deadline) (hq : q <+: cs) (hne : q ≠ cs)
    (his : is.map Prod.snd = packetInputs q)
    (hrun : (machine pc cfg snow).run l is = some (l', tr)) :
    ∃ b acc, l'.phase = .authAwait url b acc deadline := by
  induction hr generalizing l acc q is tr with
  | nil b => cases h
  | @cons b b₁ b' c p cs ps hc hrest ih =>
    rcases List.prefix_cons_iff.mp hq with rfl | ⟨q', rfl, hq'⟩
    · obtain rfl : is = [] := by simpa [packetInputs] using his
      obtain ⟨rfl, -⟩ := Mealy.run_nil.mp hrun
      exact ⟨b, acc, hl⟩
    · obtain ⟨⟨t, i⟩, is, rfl⟩ := List.exists_cons_of_ne_nil (l := is) (by
        rintro rfl
        simp [packetInputs] at his)
      obtain ⟨hi, his'⟩ := List.cons.inj his
      obtain rfl : i = .next (some (.ok (.binary c))) := hi
      cases h with
      | last hm =>
        cases hrest
        rw [List.prefix_nil.mp hq'] at hne
        exact absurd rfl hne
      | more hm hrest' =>
        have hs := step_authAwait_more cfg t hl hc hm
        obtain ⟨l₁, o, tr', hstep, hrun', -⟩ := Mealy.run_cons.mp hrun
        simp only [machine, hs, Option.map_some, Option.some.injEq, Prod.mk.injEq] at hstep
        obtain ⟨rfl, -⟩ := hstep
        exact ih hrest' rfl hq' (fun he => hne (by rw [he])) his' hrun'

/-- The loop comes to the outcome with the packets of one frame, no fewer and no more. -/
theorem eq_of_authProcess {taken : List Bytes} {noise : NoiseSession snow}
    (hr : NoiseSession.Reads b cs ps b')
    (h : Assembles pc cfg.maxPayloadBytes f acc ps)
    (hl : l.phase = .authAwait url b acc deadline) (hcomp : taken <+: cs ∨ cs <+: taken)
    (hrun : (machine pc cfg snow).run l (taken.map fun c => (0, .next (some (.ok (.binary c))))) =
      some (l', tr)) (hphase : l'.phase = .authProcess url noise) : taken = cs := by
  by_contra hne
  rcases hcomp with hlt | ⟨more, rfl⟩
  · obtain ⟨b₂, acc₂, hwait⟩ := phase_of_prefix hr h hl hlt hne (by simp [packetInputs]) hrun
    rw [hwait] at hphase
    cases hphase
  · -- what is left is not read by `handle_auth`
    cases more with
    | nil => exact hne (List.append_nil cs)
    | cons c more =>
      have his : (cs.map fun c => (0, Input.next (some (.ok (.binary c))))).map Prod.snd =
          packetInputs cs := by simp [packetInputs]
      obtain ⟨l₁, tr₁, hfirst, hend⟩ := run_authAwait hr h hl his
      rw [List.map_append] at hrun
      obtain ⟨tr₂, hmore, -⟩ := Mealy.run_rest hrun hfirst
      obtain ⟨s, o, tr₃, hstep, -, -⟩ := Mealy.run_cons.mp hmore
      have hnone : l₁.step pc cfg 0 (.next (some (.ok (.binary c)))) = none := by
        split at hend
        · simp only [step, hend.1]
        · simp only [step, hend.1]
      simp only [machine, hnone] at hstep
      cases hstep

/-- `handle_auth` gives `data` to `process_auth_response` and nothing else decides what follows: the
packets it reads lead to that call, and the next step takes its outcome. -/
def AuthDecides (pc : Postcard) (cfg : WsClientConfig) (l : Loop snow) (url : Text)
    (packets : List Bytes) (data : Bytes) : Prop :=
  ∃ taken rest, packets = taken ++ rest ∧
    ∀ is : List (ℕ × Input), is.map Prod.snd = packetInputs taken →
      ∃ l' noise tr, (machine pc cfg snow).run l is = some (l', tr) ∧ processed tr = [data] ∧
        l'.phase = .authProcess url noise ∧
        ∀ now o, l'.step pc cfg now (.authOutcome o) = some (l'.onAuthOutcome cfg now url noise o)

/-- Frames of any kinds that arrive before the answer do no harm only if there are none, or the
first of them passes for the answer. -/
theorem authDecides_iff (hl : l.phase = .authAwait url b .new deadline)
    (hid : resp.id = 1)
    (ha : Arrives pc cfg.maxPayloadBytes b groups (pre ++ [resp])) :
    AuthDecides pc cfg l url groups.flatten resp.data ↔
      ∀ g, pre.head? = some g → g.id = 1 ∧ g.data = resp.data := by
  obtain ⟨f, hf, hcond⟩ : ∃ f, (pre ++ [resp]).head? = some f ∧
      ((∀ g, pre.head? = some g → g.id = 1 ∧ g.data = resp.data) ↔
        f.id = 1 ∧ f.data = resp.data) := by
    cases pre with
    | nil => exact ⟨resp, rfl, by simp [hid]⟩
    | cons g pre => exact ⟨g, rfl, by simp⟩
  rw [hcond]
  generalize pre ++ [resp] = fs at ha hf
  cases ha with
  | nil => cases hf
  | @cons _ b₁ cs ps groups g fs hr h hrest =>
    obtain rfl : g = f := Option.some.inj hf
    rw [List.flatten_cons]
    constructor
    · rintro ⟨taken, rest, hsplit, hall⟩
      obtain ⟨l', noise, tr, hrun, hproc, hphase, -⟩ := hall (taken.map fun c =>
        (0, .next (some (.ok (.binary c))))) (by simp [packetInputs])
      have his : (cs.map fun c => (0, Input.next (some (.ok (.binary c))))).map Prod.snd =
          packetInputs cs := by simp [packetInputs]
      obtain ⟨l₁, tr₁, hfirst, hend⟩ := run_authAwait hr h hl his
      have hcs : cs <+: taken ++ rest := by
        rw [← hsplit]
        exact List.prefix_append _ _
      have hcomp : taken <+: cs ∨ cs <+: taken :=
        List.prefix_or_prefix_of_prefix (List.prefix_append _ _) hcs
      obtain rfl := eq_of_authProcess hr h hl hcomp hrun hphase
      rw [hfirst] at hrun
      cases hrun
      split at hend
      · next hone =>
        rw [hend.2] at hproc
        exact ⟨hone, by simpa using hproc⟩
      · rw [hend.1] at hphase
        cases hphase
    · rintro ⟨hone, hdata⟩
      refine ⟨cs, groups.flatten, rfl, ?_⟩
      intro is his
      obtain ⟨l', tr, hrun, hend⟩ := run_authAwait hr h hl his
      rw [if_pos hone, hdata] at hend
      obtain ⟨hphase, hproc⟩ := hend
      refine ⟨l', b₁, tr, hrun, hproc, hphase, ?_⟩
      intro now o
      simp only [step, hphase]

/-- A client that has sent its credentials. -/
def awaiting : Loop (Snow.ideal Ideal.genuine) :=
  ⟨.authAwait "ws://a".toList (Ideal.session Ideal.genuine) .new (10 * 10 ^ 9), 0, false⟩

/-- The answer comes alone, and it comes after a heartbeat. -/
theorem authDecides_iff_heartbeat :
    (∃ groups, Arrives .wire WsClientConfig.sample.maxPayloadBytes (Ideal.session Ideal.genuine)
        groups [⟨1, .message, [7]⟩] ∧
      AuthDecides .wire .sample awaiting "ws://a".toList groups.flatten [7]) ∧
    ∃ groups, Arrives .wire WsClientConfig.sample.maxPayloadBytes (Ideal.session Ideal.genuine)
        groups [⟨0, .ping, []⟩, ⟨1, .message, [7]⟩] ∧
      ¬ AuthDecides .wire .sample awaiting "ws://a".toList groups.flatten [7] := by
  have hb : ∀ f ∈ [(⟨0, .ping, []⟩ : Frame), ⟨1, .message, [7]⟩], ∃ p,
      Postcard.wire.toStdvec f = .ok p ∧ p.length < 2 ^ 32 ∧
        p.length ≤ WsClientConfig.sample.maxPayloadBytes := by
    simp only [List.forall_mem_cons]
    exact ⟨⟨_, rfl, by decide, by decide⟩, ⟨_, rfl, by decide, by decide⟩, by simp⟩
  have hpeers : NoiseSession.Peers (fun a b : Ideal.Transport => a.written = b.read)
      (Ideal.session Ideal.genuine) (Ideal.session Ideal.genuine) :=
    ⟨⟨0, 0⟩, ⟨0, 0⟩, rfl, rfl, rfl⟩
  have hphase : awaiting.phase = .authAwait "ws://a".toList (Ideal.session Ideal.genuine) .new
      (10 * 10 ^ 9) := rfl
  let ping : Frame := ⟨0, .ping, []⟩
  let resp : Frame := ⟨1, .message, [7]⟩
  have hid : resp.id = 1 := rfl
  obtain ⟨alone, -, -, halone⟩ := exists_arrives Ideal.paired Postcard.wire_lawful
    (List.forall_mem_cons.mp hb).2 hpeers
  obtain ⟨after, -, -, hafter⟩ := exists_arrives Ideal.paired Postcard.wire_lawful hb hpeers
  have hfirst : AuthDecides .wire .sample awaiting "ws://a".toList alone.flatten resp.data ↔
      ∀ g : Frame, [].head? = some g → g.id = 1 ∧ g.data = resp.data :=
    authDecides_iff hphase hid halone
  have hsecond : AuthDecides .wire .sample awaiting "ws://a".toList after.flatten resp.data ↔
      ∀ g, [ping].head? = some g → g.id = 1 ∧ g.data = resp.data :=
    authDecides_iff hphase hid hafter
  refine ⟨⟨alone, halone, hfirst.mpr (by simp)⟩, after, hafter, fun hd => ?_⟩
  exact absurd (hsecond.mp hd ping rfl).1 (by decide)

/-- A heartbeat before the answer ends the attempt. -/
theorem auth_fails_on_heartbeat : ∃ server packets l tr,
    sendFrames .wire (Ideal.session Ideal.genuine) [⟨0, .ping, []⟩, ⟨1, .message, [7]⟩] =
      (server, .ok packets) ∧
    (machine .wire .sample (Snow.ideal Ideal.genuine)).run awaiting
      ((packets.take 1).map fun c => (0, .next (some (.ok (.binary c))))) = some (l, tr) ∧
    l.phase = .top ∧ processed tr = [] ∧
    .publish (.error TransportError.connectionClosed.toText) ∈ tr := by
  let sent := sendFrames .wire (Ideal.session Ideal.genuine) [⟨0, .ping, []⟩, ⟨1, .message, [7]⟩]
  let packets := sent.2.toOption.getD []
  have hsent : sent = (sent.1, .ok packets) := rfl
  let x := (machine .wire .sample (Snow.ideal Ideal.genuine)).run awaiting
    ((packets.take 1).map fun c => (0, .next (some (.ok (.binary c)))))
  have hx : x = some ((x.get rfl).1, (x.get rfl).2) := rfl
  refine ⟨_, packets, _, _, hsent, hx, rfl, rfl, ?_⟩
  decide +kernel

end Loop

end NotifiTransport

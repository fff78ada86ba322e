import NotifiTransport.Crypto.Exchange
import NotifiTransport.Lib.Socket
import NotifiTransport.Server.Session

/-! # Two sides of a connection on a reliable socket

What a side of an encrypted connection does with its session and its socket, apart from when it does
it. It writes the packets of a payload one after the other and encrypts nothing in between; it reads
one packet at a time. When both sides are like this and a reliable socket lies between them, what
either side has encrypted has been read, is on its way, or is still to be written.
-/

namespace NotifiTransport

variable {snow : Snow}

/-- What a step does on the connection. -/
structure Deed where
  sealed : List (Bytes × Bytes) := []
  opened : List (Bytes × Bytes) := []
  written : List Message := []
  read : Option Message := none

/-- A step of one side, with its session, `none` once it has left, and what it has still to write
before and after it. -/
inductive Turn : Option (NoiseSession snow) → List Message → Deed →
    Option (NoiseSession snow) → List Message → Prop where
  | writes {n : Option (NoiseSession snow)} {u u' w : List Message} :
      w ++ u' = u → Turn n u { written := w } n u'
  | leaves {n : Option (NoiseSession snow)} {u : List Message} : Turn n u {} none []
  | seals {m m' : NoiseSession snow} {payload : Bytes} {cs : List Bytes} {u' w : List Message} :
      m.encryptChunked payload = (m', .ok cs) → w ++ u' = cs.map .binary →
      Turn (some m) [] { sealed := cs.zip (pieces maxChunkPlain payload), written := w }
        (some m') u'
  /-- The encryption fails, and this side goes on. -/
  | spoils {m m' : NoiseSession snow} {payload : Bytes} {e : CryptoError} {u : List Message} :
      m.encryptChunked payload = (m', .error e) → Turn (some m) u {} (some m') u
  | reads {m m' : NoiseSession snow} {data p : Bytes} :
      m.readMessage data data.length = (m', .ok p) →
      Turn (some m) [] { opened := [(data, p)], read := some (.binary data) } (some m') []
  | departs {m m' : NoiseSession snow} {u : List Message} {data p : Bytes} :
      m.readMessage data data.length = (m', .ok p) →
      Turn (some m) u { opened := [(data, p)], read := some (.binary data) } none []
  | refuses {n : Option (NoiseSession snow)} {u : List Message} {x : Message} :
      Turn n u { read := some x } none []

/-- From the writer to the reader: of what has been sealed, `q` has not been opened. It is on its
way or still to be written; only a writer that has left has lost something. -/
structure Carried (writer : Option (NoiseSession snow)) (unsent : List Message)
    (sealed : List (Bytes × Bytes)) (up : List Message) (q : List (Bytes × Bytes))
    (reader : Option (NoiseSession snow)) (opened : List (Bytes × Bytes)) : Prop where
  opened_le : opened <+: sealed
  rest : reader.isSome → sealed = opened ++ q
  way : reader.isSome → ∃ lost, up ++ unsent ++ lost = q.map (.binary ·.1) ∧
    (writer.isSome → lost = [])

namespace Carried

variable {n k : Option (NoiseSession snow)} {m m' : NoiseSession snow}
  {u u' w up : List Message} {sealed q opened : List (Bytes × Bytes)} {payload data p : Bytes}
  {cs : List Bytes}

/-- Nothing has been sealed yet. -/
theorem fresh : Carried n [] [] [] [] k [] :=
  ⟨List.nil_prefix, fun _ => rfl, fun _ => ⟨[], rfl, fun _ => rfl⟩⟩

theorem write (h : Carried n u sealed up q k opened) (hw : w ++ u' = u) :
    Carried n u' sealed (up ++ w) q k opened := by
  refine ⟨h.opened_le, h.rest, fun hk => ?_⟩
  rw [List.append_assoc up, hw]
  exact h.way hk

theorem leave (h : Carried n u sealed up q k opened) : Carried none [] sealed up q k opened := by
  refine ⟨h.opened_le, h.rest, fun hk => ?_⟩
  obtain ⟨lost, hl, -⟩ := h.way hk
  exact ⟨u ++ lost, by simpa using hl, by simp⟩

theorem writer (h : Carried (some m) u sealed up q k opened) :
    Carried (some m') u sealed up q k opened :=
  ⟨h.opened_le, h.rest, h.way⟩

theorem reader (h : Carried n u sealed up q (some m) opened) :
    Carried n u sealed up q (some m') opened :=
  ⟨h.opened_le, h.rest, h.way⟩

theorem encrypt (h : Carried (some m) [] sealed up q k opened)
    (he : m.encryptChunked payload = (m', .ok cs)) (hw : w ++ u' = cs.map .binary) :
    Carried (some m') u' (sealed ++ cs.zip (pieces maxChunkPlain payload)) (up ++ w)
      (q ++ cs.zip (pieces maxChunkPlain payload)) k opened := by
  refine ⟨h.opened_le.trans (List.prefix_append _ _), fun hk => ?_, fun hk => ?_⟩
  · rw [h.rest hk, List.append_assoc]
  · obtain ⟨lost, hl, hlost⟩ := h.way hk
    cases hlost rfl
    have hcs : (cs.zip (pieces maxChunkPlain payload)).map Prod.fst = cs :=
      List.map_fst_zip (NoiseSession.length_encryptPieces he).le
    refine ⟨[], ?_, fun _ => rfl⟩
    rw [List.append_nil, List.append_nil] at hl
    calc up ++ w ++ u' ++ []
      _ = up ++ cs.map .binary := by rw [List.append_nil, List.append_assoc, hw]
      _ = q.map (.binary ·.1) ++ cs.map .binary := by rw [hl]
      _ = (q ++ cs.zip (pieces maxChunkPlain payload)).map (.binary ·.1) := by
        rw [List.map_append]
        nth_rewrite 1 [← hcs]
        rw [List.map_map]
        rfl

/-- The reader has left. -/
theorem unread (h : opened <+: sealed) : Carried n u sealed up q none opened :=
  ⟨h, by simp, by simp⟩

/-- What is read first is the first packet that has not been opened. -/
theorem next (h : Carried n u sealed (.binary data :: up) q (some m) opened) :
    ∃ p q', q = (data, p) :: q' := by
  obtain ⟨lost, hl, -⟩ := h.way rfl
  rcases q with _ | ⟨⟨c, p⟩, q⟩
  · cases hl
  · obtain ⟨hc, -⟩ := List.cons.inj hl
    cases hc
    exact ⟨p, q, rfl⟩

theorem opened_read (h : Carried n u sealed up ((data, p) :: q) (some m) opened) :
    opened ++ [(data, p)] <+: sealed := by
  rw [h.rest rfl, List.prefix_append_right_inj]
  exact List.prefix_append [(data, p)] q

theorem read (h : Carried n u sealed (.binary data :: up) ((data, p) :: q) (some m) opened) :
    Carried n u sealed up q (some m') (opened ++ [(data, p)]) := by
  refine ⟨h.opened_read, fun _ => ?_, fun _ => ?_⟩
  · rw [List.append_assoc]
    exact h.rest rfl
  · obtain ⟨lost, hl, hlost⟩ := h.way rfl
    exact ⟨lost, (List.cons.inj hl).2, hlost⟩

end Carried

open NoiseSession (Joined)

variable {F : snow.Transport → List (Bytes × Bytes) → snow.Transport → Prop}
  {n n' k : Option (NoiseSession snow)} {m : NoiseSession snow} {u u' v up down : List Message}
  {d : Deed} {sealed sealed' q r opened opened' : List (Bytes × Bytes)} {data : Bytes}

/-- A session in which no call has failed reads the next message. -/
theorem Carried.read_succeeds (hF : InOrder snow F) (hj : Joined F (some m) q k r)
    (h : Carried k v sealed (.binary data :: down) r (some m) opened) (hm : m ≠ ⟨none⟩) :
    ∃ m' p r', r = (data, p) :: r' ∧ m.readMessage data data.length = (m', .ok p) ∧
      Joined F (some m') q k r' := by
  obtain ⟨p, r', rfl⟩ := h.next
  obtain ⟨m', hr, hj'⟩ := hj.symm.read hF hm
  exact ⟨m', p, r', rfl, hr, hj'.symm⟩

theorem Carried.reads {m' : NoiseSession snow} {p : Bytes} (hF : InOrder snow F)
    (hj : Joined F (some m) q k r)
    (h : Carried k v sealed (.binary data :: down) r (some m) opened)
    (hr : m.readMessage data data.length = (m', .ok p)) :
    ∃ r', r = (data, p) :: r' ∧ Joined F (some m') q k r' := by
  have hm : m ≠ ⟨none⟩ := by
    rintro rfl
    cases hr
  obtain ⟨m₁, p₁, r', rfl, hr₁, hj'⟩ := h.read_succeeds hF hj hm
  rw [hr] at hr₁
  cases hr₁
  exact ⟨r', rfl, hj'⟩

/-- A turn keeps the account in both directions. -/
theorem Turn.keeps (hF : InOrder snow F) (ht : Turn n u d n' u') (hj : Joined F n q k r)
    (hup : Carried n u sealed up q k opened)
    (hdown : Carried k v sealed' (d.read.toList ++ down) r n opened') :
    ∃ q' r', Joined F n' q' k r' ∧
      Carried n' u' (sealed ++ d.sealed) (up ++ d.written) q' k opened ∧
      Carried k v sealed' down r' n' (opened' ++ d.opened) := by
  cases ht with
  | writes hw =>
    rw [List.append_nil, List.append_nil]
    exact ⟨q, r, hj, hup.write hw, hdown⟩
  | leaves =>
    simp only [List.append_nil]
    exact ⟨q, r, hj.leave, hup.leave, .unread hdown.opened_le⟩
  | seals he hw =>
    rw [List.append_nil]
    exact ⟨_, r, hj.encrypt hF he, hup.encrypt he hw, hdown.reader⟩
  | spoils he =>
    simp only [List.append_nil]
    exact ⟨q, r, hj.encrypt_error hF he, hup.writer, hdown.reader⟩
  | reads hr =>
    obtain ⟨r', rfl, hj'⟩ := hdown.reads hF hj hr
    rw [List.append_nil, List.append_nil]
    exact ⟨q, r', hj', hup.writer, hdown.read⟩
  | departs hr =>
    obtain ⟨r', rfl, -⟩ := hdown.reads hF hj hr
    rw [List.append_nil, List.append_nil]
    exact ⟨q, _, hj.leave, hup.leave, .unread hdown.opened_read⟩
  | refuses =>
    simp only [List.append_nil]
    exact ⟨q, r, hj.leave, hup.leave, .unread hdown.opened_le⟩

/-- One side of a connection: an endpoint with its socket, each step of which is a turn. -/
structure Speaker (snow : Snow) (σ ι ω κ : Type*) extends Endpoint σ ι ω κ (Bytes × Bytes) where
  packets : κ → List (Bytes × Bytes)
  writes : ω → Option Message
  reads : ι → Option Message
  /-- The socket does not fail in a step with this input. -/
  works : ι → Bool
  noise? : σ → Option (NoiseSession snow)
  unsent : σ → List Message
  turn : ∀ s i t o, works i → step s i = some (t, o) → Turn (noise? s) (unsent s)
    ⟨(seals s i).flatMap packets, opens s i, o.filterMap writes, reads i⟩ (noise? t) (unsent t)

namespace Speaker

variable {σ ι ω κ σ' ι' ω' κ' : Type*}

/-- The endpoint with all that it has sealed and opened, on its socket. -/
def onSocket (S : Speaker snow σ ι ω κ) :
    Endpoint (Recorded σ κ (Bytes × Bytes)) ι ω Message Message :=
  S.recorded.onSocket S.writes S.reads

/-- Two sides on the two ends of one socket. -/
def together (S : Speaker snow σ ι ω κ) (T : Speaker snow σ' ι' ω' κ') :
    Mealy (Recorded (Recorded σ κ (Bytes × Bytes)) Message Message ×
      Recorded (Recorded σ' κ' (Bytes × Bytes)) Message Message) (ι ⊕ ι') (ω ⊕ ω') :=
  duplex S.onSocket T.onSocket

/-- The socket between them works, and keeps the order of the messages. -/
def Connected (S : Speaker snow σ ι ω κ) (T : Speaker snow σ' ι' ω' κ') :
    Recorded (Recorded σ κ (Bytes × Bytes)) Message Message ×
      Recorded (Recorded σ' κ' (Bytes × Bytes)) Message Message → ι ⊕ ι' → Prop :=
  Reliable S.onSocket T.onSocket fun e => Sum.elim S.works T.works e

instance (S : Speaker snow σ ι ω κ) (T : Speaker snow σ' ι' ω' κ')
    (s : Recorded (Recorded σ κ (Bytes × Bytes)) Message Message ×
      Recorded (Recorded σ' κ' (Bytes × Bytes)) Message Message) (e : ι ⊕ ι') :
    Decidable (Connected S T s e) :=
  inferInstanceAs (Decidable (Reliable _ _ _ s e))

/-- What is between two sides. -/
def Meeting (F : snow.Transport → List (Bytes × Bytes) → snow.Transport → Prop)
    (S : Speaker snow σ ι ω κ) (T : Speaker snow σ' ι' ω' κ') (a : Recorded σ κ (Bytes × Bytes))
    (up : List Message) (b : Recorded σ' κ' (Bytes × Bytes)) (down : List Message) : Prop :=
  ∃ q r, Joined F (S.noise? a.state) q (T.noise? b.state) r ∧
    Carried (S.noise? a.state) (S.unsent a.state) (a.sealed.flatMap S.packets) up q
      (T.noise? b.state) b.opened ∧
    Carried (T.noise? b.state) (T.unsent b.state) (b.sealed.flatMap T.packets) down r
      (S.noise? a.state) a.opened

variable {S : Speaker snow σ ι ω κ} {T : Speaker snow σ' ι' ω' κ'}
  {a a' : Recorded σ κ (Bytes × Bytes)} {b : Recorded σ' κ' (Bytes × Bytes)} {i : ι} {o : List ω}

theorem Meeting.symm (h : Meeting F S T a up b down) : Meeting F T S b down a up := by
  obtain ⟨q, r, hj, hup, hdown⟩ := h
  exact ⟨r, q, hj.symm, hdown, hup⟩

theorem Meeting.step (hF : InOrder snow F)
    (h : Meeting F S T a up b ((S.reads i).toList ++ down)) (hi : S.works i)
    (hs : S.recorded.step a i = some (a', o)) :
    Meeting F S T a' (up ++ o.filterMap S.writes) b down := by
  obtain ⟨q, r, hj, hup, hdown⟩ := h
  obtain ⟨hst, hsealed, hopened⟩ := Endpoint.recorded_step.mp hs
  have ht := S.turn _ _ _ _ hi hst
  obtain ⟨q', r', hj', hup', hdown'⟩ := ht.keeps hF hj hup hdown
  refine ⟨q', r', hj', ?_, ?_⟩
  · rw [hsealed, List.flatMap_append]
    exact hup'
  · rw [hopened]
    exact hdown'

/-- What one side has encrypted has been read, is on its way, or is still to be written. -/
theorem Meeting.account (h : Meeting F S T a up b down) (ha : (S.noise? a.state).isSome)
    (hb : (T.noise? b.state).isSome) : ∃ q, a.sealed.flatMap S.packets = b.opened ++ q ∧
      up ++ S.unsent a.state = q.map (.binary ·.1) := by
  obtain ⟨q, r, -, hup, -⟩ := h
  obtain ⟨lost, hl, hlost⟩ := hup.way hb
  cases hlost ha
  exact ⟨q, hup.rest hb, (List.append_nil _).symm.trans hl⟩

/-- When nothing is left to be written or on its way, the other side has opened everything. -/
theorem Meeting.arrived (h : Meeting F S T a [] b down) (ha : (S.noise? a.state).isSome)
    (hb : (T.noise? b.state).isSome) (hu : S.unsent a.state = []) :
    b.opened = a.sealed.flatMap S.packets := by
  obtain ⟨q, hq, hw⟩ := h.account ha hb
  rw [hu] at hw
  obtain rfl : q = [] := List.map_eq_nil_iff.mp hw.symm
  rw [hq, List.append_nil]

/-- A side in whose session no call has failed decrypts what it reads next. -/
theorem Meeting.decrypts (hF : InOrder snow F) (h : Meeting F S T a up b (.binary data :: down))
    (ha : S.noise? a.state = some m) (hm : m ≠ ⟨none⟩) :
    ∃ m' p, m.readMessage data data.length = (m', .ok p) ∧
      a.opened ++ [(data, p)] <+: b.sealed.flatMap T.packets := by
  obtain ⟨q, r, hj, -, hdown⟩ := h
  rw [ha] at hj hdown
  obtain ⟨m', p, r', rfl, hr, -⟩ := hdown.read_succeeds hF hj hm
  exact ⟨m', p, hr, hdown.opened_read⟩

/-- The turns of either side keep the meeting. -/
theorem keptBy_meeting (hF : InOrder snow F) (S : Speaker snow σ ι ω κ)
    (T : Speaker snow σ' ι' ω' κ') :
    KeptBy S.onSocket T.onSocket (fun e => Sum.elim S.works T.works e) (Meeting F S T) where
  left := by
    intro a up b down i a' o h hi hs
    rw [show S.onSocket.seals a i = o.filterMap S.writes from Mealy.seals_onSocket hs]
    exact h.step hF hi hs
  right := by
    intro a up b down i b' o h hi hs
    rw [show T.onSocket.seals b i = o.filterMap T.writes from Mealy.seals_onSocket hs]
    exact (h.symm.step hF hi hs).symm

section Runs

variable {s t : Recorded (Recorded σ κ (Bytes × Bytes)) Message Message ×
    Recorded (Recorded σ' κ' (Bytes × Bytes)) Message Message} {e : ι ⊕ ι'} {es : List (ι ⊕ ι')}
  {w tr : List (ω ⊕ ω')}

/-- The record of the messages does not interfere. -/
theorem step_together (h : (together S T).step s e = some (t, w)) :
    (duplex S.toEndpoint T.toEndpoint).step (s.1.state, s.2.state) e =
      some ((t.1.state, t.2.state), w) := by
  cases e with
  | inl i =>
    obtain ⟨⟨m, o⟩, hm, ho⟩ := Option.map_eq_some_iff.mp h
    cases ho
    obtain ⟨hst, -, -⟩ := Endpoint.recorded_step.mp hm
    exact Option.map_eq_some_iff.mpr ⟨_, hst, rfl⟩
  | inr i =>
    obtain ⟨⟨m, o⟩, hm, ho⟩ := Option.map_eq_some_iff.mp h
    cases ho
    obtain ⟨hst, -, -⟩ := Endpoint.recorded_step.mp hm
    exact Option.map_eq_some_iff.mpr ⟨_, hst, rfl⟩

/-- If there is a meeting after a step, each side has opened what was sealed next. -/
theorem Meeting.genuine {c : Recorded σ κ (Bytes × Bytes) × Recorded σ' κ' (Bytes × Bytes)}
    (h : Meeting F S T a up b down)
    (hs : (duplex S.toEndpoint T.toEndpoint).step c e = some ((a, b), w)) :
    Genuine S.toEndpoint T.toEndpoint S.packets T.packets c e := by
  obtain ⟨q, r, -, hup, hdown⟩ := h
  cases e with
  | inl i =>
    obtain ⟨⟨m, o⟩, hm, ho⟩ := Option.map_eq_some_iff.mp hs
    cases ho
    obtain ⟨-, -, hopened⟩ := Endpoint.recorded_step.mp hm
    exact (congrArg (· <+: _) hopened).mp hdown.opened_le
  | inr i =>
    obtain ⟨⟨m, o⟩, hm, ho⟩ := Option.map_eq_some_iff.mp hs
    cases ho
    obtain ⟨-, -, hopened⟩ := Endpoint.recorded_step.mp hm
    exact (congrArg (· <+: _) hopened).mp hup.opened_le

/-- On a socket that keeps the order of the messages both sides open only what the other one has
sealed, in its order. -/
theorem run_together {s₀ : σ} {t₀ : σ'} (hF : InOrder snow F)
    (h₀ : Meeting F S T (.fresh s₀) [] (.fresh t₀) [])
    (h : (together S T).run (.fresh (.fresh s₀), .fresh (.fresh t₀)) es = some (t, tr))
    (hG : (together S T).Along (Connected S T) (.fresh (.fresh s₀), .fresh (.fresh t₀)) es) :
    (∃ up down, InFlight t up down ∧ Meeting F S T t.1.state up t.2.state down) ∧
      (duplex S.toEndpoint T.toEndpoint).run (.fresh s₀, .fresh t₀) es =
        some ((t.1.state, t.2.state), tr) ∧
      (duplex S.toEndpoint T.toEndpoint).Along
        (Genuine S.toEndpoint T.toEndpoint S.packets T.packets) (.fresh s₀, .fresh t₀) es := by
  refine Mealy.run_induction_along (P := fun es tr t =>
    (∃ up down, InFlight t up down ∧ Meeting F S T t.1.state up t.2.state down) ∧
      (duplex S.toEndpoint T.toEndpoint).run (.fresh s₀, .fresh t₀) es =
        some ((t.1.state, t.2.state), tr) ∧
      (duplex S.toEndpoint T.toEndpoint).Along
        (Genuine S.toEndpoint T.toEndpoint S.packets T.packets) (.fresh s₀, .fresh t₀) es)
    ?_ ?_ h hG
  · exact ⟨⟨[], [], inFlight_fresh _ _, h₀⟩, rfl, Mealy.along_nil⟩
  · rintro es tr m e t o - ⟨⟨up, down, hf, hm⟩, hr, ha⟩ hg hs
    obtain ⟨up', down', hf', hm'⟩ := (keptBy_meeting hF S T).step hf hm hg hs
    have hst := step_together hs
    refine ⟨⟨up', down', hf', hm'⟩, ?_, ?_⟩
    · exact Mealy.run_concat.mpr ⟨_, _, _, hr, hst, rfl⟩
    · exact ha.concat hr (hm'.genuine hst)

end Runs

end Speaker

end NotifiTransport

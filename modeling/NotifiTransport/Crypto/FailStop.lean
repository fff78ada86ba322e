import NotifiTransport.Crypto.Ideal
import NotifiTransport.Lib.Mealy

/-! # Failed sessions

The state of a session is put back on success only. So the handshake is never entered again, and a
session that has failed once stays empty: it encrypts and decrypts nothing any more.
-/

namespace NotifiTransport

/-- A call that uses the state of the session. -/
inductive NoiseCall where
  | readMessage (packet : Bytes) (bufLen : ℕ)
  | writeMessage (payload : Bytes) (bufLen : ℕ)
  | encryptChunked (payload : Bytes)
  | decryptChunked (packets : List Bytes)

/-- What a successful call hands out. -/
inductive NoiseOutput where
  | plaintext (bytes : Bytes)
  | ciphertext (packets : List Bytes)
  deriving DecidableEq

/-- Calls that have nothing to do succeed on a failed session, without output. -/
def NoiseCall.onFailed : NoiseCall → Except CryptoError NoiseOutput
  | encryptChunked [] => .ok (.ciphertext [])
  | decryptChunked [] => .ok (.plaintext [])
  | _ => .error .invalidState

namespace NoiseSession

variable {α : Type} {snow : Snow} {noise noise' : NoiseSession snow} {c : NoiseCall}
  {cs : List NoiseCall} {tr : List (NoiseCall × Except CryptoError NoiseOutput)} {e : CryptoError}

def call (noise : NoiseSession snow) :
    NoiseCall → NoiseSession snow × Except CryptoError NoiseOutput
  | .readMessage packet bufLen =>
    let r := noise.readMessage packet bufLen
    (r.1, r.2.map .plaintext)
  | .writeMessage payload bufLen =>
    let r := noise.writeMessage payload bufLen
    (r.1, r.2.map fun packet => .ciphertext [packet])
  | .encryptChunked payload =>
    let r := noise.encryptChunked payload
    (r.1, r.2.map .ciphertext)
  | .decryptChunked packets =>
    let r := noise.decryptChunked packets
    (r.1, r.2.map .plaintext)

/-- Calls in any order, each with its result. -/
def calls (snow : Snow) :
    Mealy (NoiseSession snow) NoiseCall (NoiseCall × Except CryptoError NoiseOutput) where
  step noise c := some ((noise.call c).1, [(c, (noise.call c).2)])

/-- The session is in transport mode or has failed. -/
def PastHandshake (noise : NoiseSession snow) : Prop := ∀ s, noise.state ≠ some (.handshake s)

/-- What every call does: an error empties the session, and the handshake is not entered again. -/
structure FailStop (noise : NoiseSession snow) (r : NoiseSession snow × Except CryptoError α) :
    Prop where
  eq_none : ∀ e, r.2 = .error e → r.1 = ⟨none⟩
  past : noise.PastHandshake → r.1.PastHandshake

theorem pastHandshake_none : (⟨none⟩ : NoiseSession snow).PastHandshake := by
  rintro s ⟨⟩

theorem pastHandshake_transport (s : snow.Transport) :
    (⟨some (.transport s)⟩ : NoiseSession snow).PastHandshake := by
  rintro s' ⟨⟩

theorem failStop_error (noise : NoiseSession snow) (e : CryptoError) :
    FailStop noise (⟨none⟩, (.error e : Except CryptoError α)) :=
  ⟨fun _ _ => rfl, fun _ => pastHandshake_none⟩

theorem failStop_transport (noise : NoiseSession snow) (s : snow.Transport) (a : α) :
    FailStop noise (⟨some (.transport s)⟩, .ok a) := by
  constructor
  · rintro e ⟨⟩
  · exact fun _ => pastHandshake_transport s

theorem PastHandshake.of_isFinished (h : noise.isFinished = true) : noise.PastHandshake := by
  intro s hs
  rw [isFinished, hs] at h
  cases h

section Messages

variable {b : Bytes} {n : ℕ}

theorem afterHandshake_error {r : Except Text (Bytes × snow.Handshake)}
    (h : (afterHandshake r).2 = .error e) : (afterHandshake r).1 = ⟨none⟩ := by
  unfold afterHandshake at h ⊢
  cases r with
  | error => rfl
  | ok p =>
    dsimp only at h ⊢
    by_cases hf : snow.isHandshakeFinished p.2 = true
    · rw [if_pos hf] at h ⊢
      cases ht : snow.intoTransportMode p.2 with
      | error => rfl
      | ok t =>
        rw [ht] at h
        cases h
    · rw [if_neg hf] at h
      cases h

theorem failStop_readMessage (noise : NoiseSession snow) (b : Bytes) (n : ℕ) :
    FailStop noise (noise.readMessage b n) := by
  obtain ⟨_ | s | s⟩ := noise
  · exact failStop_error _ _
  · exact ⟨fun _ h => afterHandshake_error h, fun h => absurd rfl (h s)⟩
  · rw [readMessage]
    dsimp only
    cases snow.readTransport s b n with
    | error => exact failStop_error _ _
    | ok p => exact failStop_transport _ p.2 p.1

theorem failStop_writeMessage (noise : NoiseSession snow) (b : Bytes) (n : ℕ) :
    FailStop noise (noise.writeMessage b n) := by
  obtain ⟨_ | s | s⟩ := noise
  · exact failStop_error _ _
  · exact ⟨fun _ h => afterHandshake_error h, fun h => absurd rfl (h s)⟩
  · rw [writeMessage]
    dsimp only
    cases snow.writeTransport s b n with
    | error => exact failStop_error _ _
    | ok p => exact failStop_transport _ p.2 p.1

end Messages

theorem FailStop.map {β : Type} {r : NoiseSession snow × Except CryptoError α} (f : α → β)
    (h : FailStop noise r) : FailStop noise (r.1, r.2.map f) := by
  constructor
  · intro e he
    rcases r with ⟨noise₁, e₁ | a⟩
    · exact h.eq_none e₁ rfl
    · cases he
  · exact h.past

theorem FailStop.trans {β : Type} {a : α} {r : NoiseSession snow × Except CryptoError β}
    (h : FailStop noise (noise', .ok a)) (hr : FailStop noise' r) : FailStop noise r :=
  ⟨hr.eq_none, fun hp => hr.past (h.past hp)⟩

theorem failStop_ok (noise : NoiseSession snow) (a : α) : FailStop noise (noise, .ok a) := by
  constructor
  · rintro e ⟨⟩
  · exact id

/-- A failure in the middle of the pieces empties the session as well. -/
theorem failStop_encryptPieces (noise : NoiseSession snow) (ps : List Bytes) :
    FailStop noise (noise.encryptPieces ps) := by
  induction ps generalizing noise with
  | nil => exact failStop_ok noise []
  | cons p ps ih =>
    have hfirst := failStop_writeMessage noise p (p.length + 16)
    rw [encryptPieces]
    rcases hw : noise.writeMessage p (p.length + 16) with ⟨noise₁, e | packet⟩
    · rw [hw] at hfirst
      exact ⟨fun _ _ => hfirst.eq_none e rfl, hfirst.past⟩
    · rw [hw] at hfirst
      have hrest := hfirst.trans ((ih noise₁).map fun packets => packet :: packets)
      dsimp only
      rcases he : noise₁.encryptPieces ps with ⟨noise₂, e | packets⟩
      · rwa [he] at hrest
      · rwa [he] at hrest

theorem failStop_decryptChunked (noise : NoiseSession snow) (packets : List Bytes) :
    FailStop noise (noise.decryptChunked packets) := by
  induction packets generalizing noise with
  | nil => exact failStop_ok noise []
  | cons p ps ih =>
    have hfirst := failStop_readMessage noise p p.length
    rw [decryptChunked]
    rcases hr : noise.readMessage p p.length with ⟨noise₁, e | out⟩
    · rw [hr] at hfirst
      exact ⟨fun _ _ => hfirst.eq_none e rfl, hfirst.past⟩
    · rw [hr] at hfirst
      have hrest := hfirst.trans ((ih noise₁).map fun tail => out ++ tail)
      dsimp only
      rcases hd : noise₁.decryptChunked ps with ⟨noise₂, e | tail⟩
      · rwa [hd] at hrest
      · rwa [hd] at hrest

theorem failStop_call (noise : NoiseSession snow) (c : NoiseCall) :
    FailStop noise (noise.call c) := by
  cases c with
  | readMessage packet n => exact (failStop_readMessage noise packet n).map _
  | writeMessage payload n => exact (failStop_writeMessage noise payload n).map _
  | encryptChunked payload => exact (failStop_encryptPieces noise _).map _
  | decryptChunked packets => exact (failStop_decryptChunked noise packets).map _

/-- A failed session stays as it is. -/
theorem call_none (c : NoiseCall) :
    (⟨none⟩ : NoiseSession snow).call c = (⟨none⟩, c.onFailed) := by
  cases c with
  | readMessage packet n => rfl
  | writeMessage payload n => rfl
  | encryptChunked payload =>
    cases payload with
    | nil => rfl
    | cons b bs =>
      obtain ⟨ps, hps⟩ := pieces_eq_cons (n := maxChunkPlain) (List.cons_ne_nil b bs)
      rw [call, encryptChunked, hps]
      rfl
  | decryptChunked packets =>
    cases packets with
    | nil => rfl
    | cons p ps => rfl

theorem step_calls {o : List (NoiseCall × Except CryptoError NoiseOutput)} :
    (calls snow).step noise c = some (noise', o) ↔
      noise' = (noise.call c).1 ∧ o = [(c, (noise.call c).2)] := by
  rw [calls, Option.some.injEq, Prod.mk.injEq, eq_comm (a := noise'), eq_comm (a := o)]

theorem run_none (h : (calls snow).run ⟨none⟩ cs = some (noise', tr)) :
    noise' = ⟨none⟩ ∧ tr = cs.map fun c => (c, c.onFailed) := by
  refine Mealy.run_induction (P := fun cs tr m => m = ⟨none⟩ ∧
    tr = cs.map fun c => (c, c.onFailed)) ⟨rfl, rfl⟩ ?_ h
  rintro cs tr m c m' o - ⟨rfl, rfl⟩ hs
  obtain ⟨rfl, rfl⟩ := step_calls.mp hs
  rw [call_none]
  simp

theorem run_pastHandshake (h : (calls snow).run noise cs = some (noise', tr))
    (hp : noise.PastHandshake) : noise'.PastHandshake := by
  refine Mealy.run_invariant ?_ h hp
  intro m c m' o hm hs
  obtain ⟨rfl, -⟩ := step_calls.mp hs
  exact (failStop_call m c).past hm

theorem run_map_fst (h : (calls snow).run noise cs = some (noise', tr)) : tr.map Prod.fst = cs := by
  refine Mealy.run_induction (P := fun cs tr _ => tr.map Prod.fst = cs) rfl ?_ h
  rintro cs tr m c m' o - ih hs
  obtain ⟨-, rfl⟩ := step_calls.mp hs
  rw [List.map_append, ih]
  rfl

/-- After a failed call the session is empty, and the later calls are those on an empty session. -/
theorem run_failed {u v : List (NoiseCall × Except CryptoError NoiseOutput)}
    (h : (calls snow).run noise cs = some (noise', u ++ (c, .error e) :: v)) :
    noise' = ⟨none⟩ ∧ ∀ r ∈ v, r.2 = r.1.onFailed := by
  obtain ⟨pre, d, post, m, tr, m₁, o₁, o₂, rfl, hm, hs, rfl⟩ := Mealy.run_split h
  obtain ⟨m₂, o, v', hs', hrest, hv⟩ := Mealy.run_at h hm
  obtain ⟨rfl, ho⟩ := step_calls.mp hs
  obtain ⟨rfl, rfl⟩ := step_calls.mp hs'
  obtain ⟨rfl, hlast⟩ : o₁ = [] ∧ (c, .error e) :: o₂ = [(d, (m.call d).2)] := by
    cases o₁ with
    | nil => exact ⟨rfl, ho⟩
    | cons x o₁ => simp at ho
  obtain ⟨hcall, rfl⟩ := List.cons.inj hlast
  obtain ⟨rfl, herr⟩ := Prod.mk.inj hcall
  rw [(failStop_call m c).eq_none e herr.symm] at hrest
  obtain ⟨hnone, rfl⟩ := run_none hrest
  obtain ⟨-, rfl⟩ : _ ∧ v = post.map fun c => (c, c.onFailed) := by simpa using hv
  constructor
  · exact hnone
  · rw [List.forall_mem_map]
    intro c _
    rfl

/-- The results of any calls: a session in transport mode never returns to the handshake, and a
failure ends all output. -/
theorem calls_failStop (h : (calls snow).run noise cs = some (noise', tr)) :
    tr.map Prod.fst = cs ∧
    (∀ pre post m u, cs = pre ++ post → (calls snow).run noise pre = some (m, u) →
      m.isFinished = true → ∀ s, noise'.state ≠ some (.handshake s)) ∧
    ∀ u c e v, tr = u ++ (c, .error e) :: v →
      noise'.isFinished = false ∧ ∀ r ∈ v, r.2 = r.1.onFailed := by
  refine ⟨run_map_fst h, ?_, ?_⟩
  · rintro pre post m u rfl hm hfin
    obtain ⟨v, hrest, -⟩ := Mealy.run_rest h hm
    exact run_pastHandshake hrest (.of_isFinished hfin)
  · rintro u c e v rfl
    obtain ⟨rfl, hv⟩ := run_failed h
    exact ⟨rfl, hv⟩

/-- The second of two packets is forged; the plaintext of the first is not handed out either. -/
theorem calls_failStop_forged :
    let noise : NoiseSession (Snow.ideal Ideal.genuine) := ⟨some (.transport ⟨0, 0⟩)⟩
    let cs : List NoiseCall := [.writeMessage [1] 17,
      .decryptChunked [[7] ++ Ideal.tag 0, [8] ++ Ideal.tag 0], .readMessage ([9] ++ Ideal.tag 1) 17,
      .encryptChunked []]
    ∃ noise' tr, (calls _).run noise cs = some (noise', tr) ∧ noise.isFinished = true ∧
      noise'.isFinished = false ∧ ∀ r ∈ tr.drop 2, r.2 = r.1.onFailed := by
  intro noise cs
  have hrun : (calls _).run noise cs = some (⟨none⟩,
      [(.writeMessage [1] 17, .ok (.ciphertext [[1] ++ Ideal.tag 0])),
        (.decryptChunked [[7] ++ Ideal.tag 0, [8] ++ Ideal.tag 0],
          .error (.decryptFailed "decrypt error".toList)),
        (.readMessage ([9] ++ Ideal.tag 1) 17, .error .invalidState),
        (.encryptChunked [], .ok (.ciphertext []))]) := rfl
  obtain ⟨hfin, hrest⟩ := (calls_failStop hrun).2.2 [_] _ _ _ rfl
  exact ⟨_, _, hrun, rfl, hfin, hrest⟩

end NoiseSession

end NotifiTransport

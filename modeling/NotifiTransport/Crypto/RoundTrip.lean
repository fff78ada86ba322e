import NotifiTransport.Crypto.Ideal
import Mathlib.GroupTheory.GroupAction.Ring

/-! # Many payloads on one session

`encrypt_chunked` is called for one payload after another, and `decrypt_chunked` for the packets of
each. The two message counters stay in step across the calls, so all payloads come back, as long as
the counter has values left.
-/

namespace NotifiTransport

variable {snow : Snow}

/-- `R n a b` says that `a` has written `n` packets and `b` has read exactly these. The counter can
count `limit` packets. -/
structure PairedUpTo (snow : Snow) (limit : ℕ)
    (R : ℕ → snow.Transport → snow.Transport → Prop) : Prop where
  write_read : ∀ n a b p, R n a b → n < limit → p.length ≤ maxChunkPlain →
    ∃ c a', snow.writeTransport a p (p.length + 16) = .ok (c, a') ∧ c.length = p.length + 16 ∧
      ∃ b', snow.readTransport b c c.length = .ok (p, b') ∧ R (n + 1) a' b'

/-- The transport messages that snow's counter allows. -/
def maxMessages : ℕ := 2 ^ 64 - 1

namespace NoiseSession

/-- Encrypt payloads one after another, up to the first failure. -/
def encryptAll (noise : NoiseSession snow) :
    List Bytes → NoiseSession snow × Except CryptoError (List (List Bytes))
  | [] => (noise, .ok [])
  | payload :: payloads =>
    match noise.encryptChunked payload with
    | (noise, .error e) => (noise, .error e)
    | (noise, .ok packets) =>
      match encryptAll noise payloads with
      | (noise, .error e) => (noise, .error e)
      | (noise, .ok rest) => (noise, .ok (packets :: rest))

/-- Decrypt lists of packets one after another, up to the first failure. -/
def decryptAll (noise : NoiseSession snow) :
    List (List Bytes) → NoiseSession snow × Except CryptoError (List Bytes)
  | [] => (noise, .ok [])
  | packets :: rest =>
    match noise.decryptChunked packets with
    | (noise, .error e) => (noise, .error e)
    | (noise, .ok payload) =>
      match decryptAll noise rest with
      | (noise, .error e) => (noise, .error e)
      | (noise, .ok payloads) => (noise, .ok (payload :: payloads))

/-- Two finished sessions of which one has read the `n` packets that the other has written. -/
def InStep (R : ℕ → snow.Transport → snow.Transport → Prop) (n : ℕ) (a b : NoiseSession snow) :
    Prop :=
  ∃ s t, a = ⟨some (.transport s)⟩ ∧ b = ⟨some (.transport t)⟩ ∧ R n s t

variable {R : ℕ → snow.Transport → snow.Transport → Prop} {a b : NoiseSession snow} {n limit : ℕ}

theorem InStep.write_read (hR : PairedUpTo snow limit R) (h : InStep R n a b) (hn : n < limit)
    {p : Bytes} (hp : p.length ≤ maxChunkPlain) :
    ∃ c a' b', a.writeMessage p (p.length + 16) = (a', .ok c) ∧ c.length = p.length + 16 ∧
      b.readMessage c c.length = (b', .ok p) ∧ InStep R (n + 1) a' b' := by
  obtain ⟨s, t, rfl, rfl, hst⟩ := h
  obtain ⟨c, s', hw, hc, t', hr, hst'⟩ := hR.write_read n s t p hst hn hp
  exact ⟨c, ⟨some (.transport s')⟩, ⟨some (.transport t')⟩, by simp [writeMessage, hw], hc,
    by simp [readMessage, hr], s', t', rfl, rfl, hst'⟩

/-- The loops of the two sides over the pieces of one payload. -/
theorem InStep.encryptPieces (hR : PairedUpTo snow limit R) (h : InStep R n a b) {ps : List Bytes}
    (hp : ∀ p ∈ ps, p.length ≤ maxChunkPlain) (hn : n + ps.length ≤ limit) :
    ∃ cs a' b', a.encryptPieces ps = (a', .ok cs) ∧ (∀ c ∈ cs, c.length ≤ 65535) ∧
      b.decryptChunked cs = (b', .ok ps.flatten) ∧ InStep R (n + ps.length) a' b' := by
  induction ps generalizing n a b with
  | nil => exact ⟨[], a, b, rfl, by simp, rfl, h⟩
  | cons p ps ih =>
    rw [List.length_cons] at hn
    have hple : p.length ≤ maxChunkPlain := hp p List.mem_cons_self
    obtain ⟨c, a₁, b₁, hw, hc, hr, h₁⟩ := h.write_read hR (by omega) hple
    obtain ⟨cs, a₂, b₂, hws, hcs, hrs, h₂⟩ :=
      ih h₁ (fun q hq => hp q (List.mem_cons_of_mem _ hq)) (by omega)
    refine ⟨c :: cs, a₂, b₂, ?_, ?_, ?_, ?_⟩
    · simp [NoiseSession.encryptPieces, hw, hws]
    · rw [List.forall_mem_cons]
      constructor
      · unfold maxChunkPlain at hple
        omega
      · exact hcs
    · simp [decryptChunked, hr, hrs]
    · rw [List.length_cons, Nat.add_comm ps.length, ← Nat.add_assoc]
      exact h₂

theorem InStep.encryptChunked (hR : PairedUpTo snow limit R) (h : InStep R n a b) (p : Bytes)
    (hn : n + p.length ⌈/⌉ maxChunkPlain ≤ limit) :
    ∃ cs a' b', a.encryptChunked p = (a', .ok cs) ∧ cs.length = p.length ⌈/⌉ maxChunkPlain ∧
      (∀ c ∈ cs, c.length ≤ 65535) ∧ b.decryptChunked cs = (b', .ok p) ∧
      InStep R (n + p.length ⌈/⌉ maxChunkPlain) a' b' := by
  have hpos : 0 < maxChunkPlain := by decide
  rw [← length_pieces hpos p] at hn ⊢
  obtain ⟨cs, a', b', hw, hcs, hr, h'⟩ :=
    h.encryptPieces hR (fun _ hq => length_le_of_mem_pieces hpos hq) hn
  rw [flatten_pieces hpos] at hr
  exact ⟨cs, a', b', hw, length_encryptPieces hw, hcs, hr, h'⟩

/-- The packets of a list of payloads. -/
def packetCount (ps : List Bytes) : ℕ := (ps.map fun p => p.length ⌈/⌉ maxChunkPlain).sum

/-- Any payloads, encrypted one after another and decrypted in the same order, come back unchanged,
each in as many packets as its length takes and no packet longer than a Noise message. -/
theorem encryptAll_decryptAll (hR : PairedUpTo snow maxMessages R) (h : InStep R n a b) (ps : List Bytes)
    (hn : n + packetCount ps < maxMessages) :
    ∃ css a' b', a.encryptAll ps = (a', .ok css) ∧
      css.map List.length = ps.map (fun p => p.length ⌈/⌉ 65519) ∧
      (∀ cs ∈ css, ∀ c ∈ cs, c.length ≤ 65535) ∧ b.decryptAll css = (b', .ok ps) ∧
      InStep R (n + packetCount ps) a' b' := by
  induction ps generalizing n a b with
  | nil => exact ⟨[], a, b, rfl, rfl, by simp, rfl, h⟩
  | cons p ps ih =>
    have hcount : packetCount (p :: ps) = p.length ⌈/⌉ maxChunkPlain + packetCount ps := rfl
    rw [hcount, ← Nat.add_assoc] at hn ⊢
    obtain ⟨cs, a₁, b₁, hw, hlen, hcs, hr, h₁⟩ := h.encryptChunked hR p (by omega)
    obtain ⟨css, a₂, b₂, hws, hlens, hcss, hrs, h₂⟩ := ih h₁ hn
    refine ⟨cs :: css, a₂, b₂, ?_, ?_, ?_, ?_, h₂⟩
    · simp [NoiseSession.encryptAll, hw, hws]
    · rw [List.map_cons, List.map_cons, hlens, hlen]
      rfl
    · rw [List.forall_mem_cons]
      exact ⟨hcs, hcss⟩
    · simp [decryptAll, hr, hrs]

end NoiseSession

/-- The ideal channel counts its packets. -/
theorem Ideal.pairedUpTo (limit : ℕ) : PairedUpTo (Snow.ideal genuine) limit
    fun n a b => a.written = n ∧ b.read = n where
  write_read := by
    rintro n a b p ⟨rfl, hb⟩ - hp
    refine ⟨p ++ tag a.written, ⟨a.written + 1, a.read⟩, ?_, by simp, ⟨b.written, b.read + 1⟩, ?_, ?_⟩
    · simp [Snow.ideal, hp]
    · simp [Snow.ideal, genuine, hb, plain_append_tag]
    · simp [hb]

/-- An empty payload between two others, on the sessions of the ideal channel. -/
theorem Ideal.encryptAll_decryptAll_three : ∃ css a' b',
    (session genuine).encryptAll [[1, 2], [], [3]] = (a', .ok css) ∧
      css.map List.length = ([[1, 2], [], [3]] : List Bytes).map (fun p => p.length ⌈/⌉ 65519) ∧
      (∀ cs ∈ css, ∀ c ∈ cs, c.length ≤ 65535) ∧
      (session genuine).decryptAll css = (b', .ok [[1, 2], [], [3]]) ∧
      NoiseSession.InStep
        (fun n (a b : (Snow.ideal genuine).Transport) => Transport.written a = n ∧ Transport.read b = n)
        (0 + NoiseSession.packetCount [[1, 2], [], [3]]) a' b' := by
  apply NoiseSession.encryptAll_decryptAll (pairedUpTo maxMessages)
  · exact ⟨⟨0, 0⟩, ⟨0, 0⟩, rfl, rfl, rfl, rfl⟩
  · decide

end NotifiTransport

import NotifiTransport.Crypto.Session

/-! # Transport mode

Two assumptions about snow in transport mode, each as a structure over the parameter.
`Paired` is correctness: the peer's `n`-th read decrypts the `n`-th packet written.
`Authentic` is integrity: the `n`-th read accepts nothing else. Both are lifted from one
snow call to the chunk loops of `NoiseSession`.
-/

namespace NotifiTransport

variable {snow : Snow}

/-- `R a b` says that `b` has read exactly the packets that `a` has written. -/
structure Paired (snow : Snow) (R : snow.Transport → snow.Transport → Prop) : Prop where
  write_read : ∀ a b p, R a b → p.length ≤ maxChunkPlain →
    ∃ c a', snow.writeTransport a p (p.length + 16) = .ok (c, a') ∧ c.length = p.length + 16 ∧
      ∃ b', snow.readTransport b c c.length = .ok (p, b') ∧ R a' b'

/-- `pos s` counts the reads of `s`; the next one succeeds only on the packet at that
position of `sent`, and returns its plaintext. Writes do not move the position. -/
structure Authentic (snow : Snow) (sent : List (Bytes × Bytes))
    (pos : snow.Transport → ℕ) : Prop where
  read : ∀ s c n p s', snow.readTransport s c n = .ok (p, s') →
    sent[pos s]? = some (c, p) ∧ pos s' = pos s + 1
  write : ∀ s p n c s', snow.writeTransport s p n = .ok (c, s') → pos s' = pos s

namespace NoiseSession

/-- Two finished sessions whose transport states are related by `R`. -/
def Peers (R : snow.Transport → snow.Transport → Prop) (a b : NoiseSession snow) : Prop :=
  ∃ s t, a = ⟨some (.transport s)⟩ ∧ b = ⟨some (.transport t)⟩ ∧ R s t

/-- Reading the packets in order, one per call, yields the plaintexts. -/
inductive Reads : NoiseSession snow → List Bytes → List Bytes → NoiseSession snow → Prop where
  | nil (b : NoiseSession snow) : Reads b [] [] b
  | cons {b b' b'' : NoiseSession snow} {c p : Bytes} {cs ps : List Bytes} :
      b.readMessage c c.length = (b', .ok p) → Reads b' cs ps b'' →
      Reads b (c :: cs) (p :: ps) b''

theorem Reads.append {a b c : NoiseSession snow} {cs cs' ps ps' : List Bytes}
    (h : Reads a cs ps b) (h' : Reads b cs' ps' c) : Reads a (cs ++ cs') (ps ++ ps') c := by
  induction h with
  | nil => exact h'
  | cons hr _ ih => exact .cons hr (ih h')

section Paired

variable {R : snow.Transport → snow.Transport → Prop} {a b : NoiseSession snow}

theorem Peers.write_read (hR : Paired snow R) (h : Peers R a b) {p : Bytes}
    (hp : p.length ≤ maxChunkPlain) :
    ∃ c a' b', a.writeMessage p (p.length + 16) = (a', .ok c) ∧ c.length = p.length + 16 ∧
      b.readMessage c c.length = (b', .ok p) ∧ Peers R a' b' := by
  obtain ⟨s, t, rfl, rfl, hst⟩ := h
  obtain ⟨c, s', hw, hc, t', hr, hst'⟩ := hR.write_read s t p hst hp
  exact ⟨c, ⟨some (.transport s')⟩, ⟨some (.transport t')⟩, by simp [writeMessage, hw], hc,
    by simp [readMessage, hr], s', t', rfl, rfl, hst'⟩

theorem Peers.encryptPieces (hR : Paired snow R) (h : Peers R a b) {ps : List Bytes}
    (hp : ∀ p ∈ ps, p.length ≤ maxChunkPlain) :
    ∃ cs a' b', a.encryptPieces ps = (a', .ok cs) ∧ Reads b cs ps b' ∧ Peers R a' b' := by
  induction ps generalizing a b with
  | nil => exact ⟨[], a, b, rfl, .nil b, h⟩
  | cons p ps ih =>
    obtain ⟨c, a₁, b₁, hw, -, hr, h₁⟩ := h.write_read hR (hp p List.mem_cons_self)
    obtain ⟨cs, a₂, b₂, hws, hrs, h₂⟩ := ih h₁ fun q hq => hp q (List.mem_cons_of_mem _ hq)
    exact ⟨c :: cs, a₂, b₂, by simp [NoiseSession.encryptPieces, hw, hws], .cons hr hrs, h₂⟩

theorem Peers.encryptChunked (hR : Paired snow R) (h : Peers R a b) (payload : Bytes) :
    ∃ cs a' b', a.encryptChunked payload = (a', .ok cs) ∧
      Reads b cs (pieces maxChunkPlain payload) b' ∧ Peers R a' b' :=
  h.encryptPieces hR fun _ hp => length_le_of_mem_pieces (by decide) hp

end Paired

theorem length_encryptPieces {a a' : NoiseSession snow} {ps cs : List Bytes}
    (h : a.encryptPieces ps = (a', .ok cs)) : cs.length = ps.length := by
  induction ps generalizing a cs with
  | nil => cases h; rfl
  | cons p ps ih =>
    rw [NoiseSession.encryptPieces] at h
    split at h
    · cases h
    · split at h
      · cases h
      · next hs =>
        cases h
        simp [ih hs]

/-- The session has made `k` reads in transport mode, or has failed and is empty. -/
def AtPos (pos : snow.Transport → ℕ) (k : ℕ) (noise : NoiseSession snow) : Prop :=
  noise.state = none ∨ ∃ s, noise.state = some (.transport s) ∧ pos s = k

section Authentic

variable {sent : List (Bytes × Bytes)} {pos : snow.Transport → ℕ} {k n : ℕ}
  {noise noise' : NoiseSession snow} {b c : Bytes}

theorem AtPos.readMessage (hA : Authentic snow sent pos) (h : AtPos pos k noise)
    (hr : noise.readMessage c n = (noise', .ok b)) :
    sent[k]? = some (c, b) ∧ AtPos pos (k + 1) noise' := by
  obtain ⟨state⟩ := noise
  rcases h with h | ⟨s, h, rfl⟩ <;> cases h
  · simp at hr
  · obtain ⟨s', hs, hs'⟩ := readMessage_transport_ok hr
    obtain ⟨hc, hp⟩ := hA.read _ _ _ _ _ hs
    exact ⟨hc, Or.inr ⟨s', hs', hp⟩⟩

theorem AtPos.writeMessage (hA : Authentic snow sent pos) (h : AtPos pos k noise) (p : Bytes) :
    AtPos pos k (noise.writeMessage p n).1 := by
  obtain ⟨state⟩ := noise
  rcases h with h | ⟨s, h, rfl⟩ <;> cases h
  · exact Or.inl rfl
  · simp only [NoiseSession.writeMessage]
    split
    · exact Or.inl rfl
    · next s' hw => exact Or.inr ⟨s', rfl, hA.write _ _ _ _ _ hw⟩

theorem AtPos.encryptPieces (hA : Authentic snow sent pos) (h : AtPos pos k noise)
    (ps : List Bytes) : AtPos pos k (noise.encryptPieces ps).1 := by
  induction ps generalizing noise with
  | nil => exact h
  | cons p ps ih =>
    have hw := h.writeMessage (n := p.length + 16) hA p
    rw [NoiseSession.encryptPieces]
    split
    · next he => rwa [he] at hw
    · next he =>
      rw [he] at hw
      have hs := ih hw
      split <;> next he' => rwa [he'] at hs

theorem AtPos.encryptChunked (hA : Authentic snow sent pos) (h : AtPos pos k noise)
    (payload : Bytes) : AtPos pos k (noise.encryptChunked payload).1 :=
  h.encryptPieces hA _

end Authentic

end NoiseSession

end NotifiTransport

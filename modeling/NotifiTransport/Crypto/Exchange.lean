import NotifiTransport.Crypto.FailStop

/-! # Two sessions with each other

What snow promises about two honest ends. `InOrder` is about transport mode on a channel that keeps
the order: what one end has written, the other one can read. `Exchange` is about the handshake: its
three messages leave both ends in transport mode.
-/

namespace NotifiTransport

/-- `F a q b` says that `q` are the packets that `a` has written and `b` has not read yet, with
their plaintexts. Each direction is left alone by the calls for the other one. -/
structure InOrder (snow : Snow)
    (F : snow.Transport → List (Bytes × Bytes) → snow.Transport → Prop) : Prop where
  write : ∀ a q b p c a', F a q b → snow.writeTransport a p (p.length + 16) = .ok (c, a') →
    F a' (q ++ [(c, p)]) b ∧ ∀ r, F b r a → F b r a'
  read : ∀ a c p q b, F a ((c, p) :: q) b → ∃ b', snow.readTransport b c c.length = .ok (p, b') ∧
    F a q b' ∧ ∀ r, F b r a → F b' r a

variable {snow : Snow} {F : snow.Transport → List (Bytes × Bytes) → snow.Transport → Prop}

namespace NoiseSession

/-- The session is in the transport state `a`, or a call has failed; what this call had written
before, `x`, is lost. -/
def Ends (n : NoiseSession snow) (a : snow.Transport) (x : List (Bytes × Bytes)) : Prop :=
  n = ⟨none⟩ ∨ n = ⟨some (.transport a)⟩ ∧ x = []

/-- The two ends of a connection, `none` for one that is gone, each with the packets on their way
to the other one. -/
def Joined (F : snow.Transport → List (Bytes × Bytes) → snow.Transport → Prop)
    (n : Option (NoiseSession snow)) (up : List (Bytes × Bytes)) (m : Option (NoiseSession snow))
    (down : List (Bytes × Bytes)) : Prop :=
  ∃ a b x y, F a (up ++ x) b ∧ F b (down ++ y) a ∧ (∀ k ∈ n, Ends k a x) ∧ ∀ k ∈ m, Ends k b y

variable {n n' m : NoiseSession snow} {up down q x : List (Bytes × Bytes)}
  {k l : Option (NoiseSession snow)} {ps cs : List Bytes} {c p : Bytes} {e : CryptoError}
  {a b : snow.Transport}

theorem Ends.writeMessage (hF : InOrder snow F) (hn : Ends n a x) (hf : F a (q ++ x) b)
    (hw : n.writeMessage p (p.length + 16) = (n', .ok c)) :
    ∃ a', Ends n' a' [] ∧ F a' (q ++ [(c, p)]) b ∧ ∀ r, F b r a → F b r a' := by
  rcases hn with rfl | ⟨rfl, rfl⟩
  · cases hw
  · rw [List.append_nil] at hf
    rw [NoiseSession.writeMessage] at hw
    dsimp only at hw
    rcases hs : snow.writeTransport a p (p.length + 16) with e | ⟨c', a'⟩ <;>
      rw [hs] at hw <;> cases hw
    exact ⟨a', Or.inr ⟨rfl, rfl⟩, hF.write a q b p c a' hf hs⟩

theorem Ends.encryptPieces (hF : InOrder snow F) (hn : Ends n a x) (hf : F a (q ++ x) b)
    (he : n.encryptPieces ps = (n', .ok cs)) :
    ∃ a' x', Ends n' a' x' ∧ F a' (q ++ cs.zip ps ++ x') b ∧ ∀ r, F b r a → F b r a' := by
  induction ps generalizing n a q x cs with
  | nil =>
    cases he
    exact ⟨a, x, hn, by simpa using hf, fun _ hr => hr⟩
  | cons p ps ih =>
    rw [NoiseSession.encryptPieces] at he
    split at he
    · cases he
    · next n₁ c hw =>
      obtain ⟨a₁, hn₁, hf₁, hframe⟩ := hn.writeMessage hF hf hw
      split at he
      · cases he
      · next n₂ cs₂ hws =>
        cases he
        rw [← List.append_nil (q ++ _)] at hf₁
        obtain ⟨a₂, x₂, hn₂, hf₂, hframe₂⟩ := ih hn₁ hf₁ hws
        refine ⟨a₂, x₂, hn₂, ?_, fun r hr => hframe₂ r (hframe r hr)⟩
        simpa using hf₂

/-- A failed call may have written some packets. -/
theorem Ends.encryptPieces_error (hF : InOrder snow F) (hn : Ends n a x) (hf : F a (q ++ x) b)
    (he : n.encryptPieces ps = (n', .error e)) :
    ∃ a' x', F a' (q ++ x') b ∧ ∀ r, F b r a → F b r a' := by
  induction ps generalizing n a q x with
  | nil => cases he
  | cons p ps ih =>
    rw [NoiseSession.encryptPieces] at he
    split at he
    · exact ⟨a, x, hf, fun _ hr => hr⟩
    · next n₁ c hw =>
      obtain ⟨a₁, hn₁, hf₁, hframe⟩ := hn.writeMessage hF hf hw
      split at he
      · next n₂ e' hws =>
        cases he
        rw [← List.append_nil (q ++ _)] at hf₁
        obtain ⟨a₂, x₂, hf₂, hframe₂⟩ := ih hn₁ hf₁ hws
        refine ⟨a₂, (c, p) :: x₂, ?_, fun r hr => hframe₂ r (hframe r hr)⟩
        simpa using hf₂
      · cases he

theorem Joined.symm (h : Joined F k up l down) : Joined F l down k up := by
  obtain ⟨a, b, x, y, hf, hf', hk, hl⟩ := h
  exact ⟨b, a, y, x, hf', hf, hl, hk⟩

theorem Joined.leave (h : Joined F k up l down) : Joined F none up l down := by
  obtain ⟨a, b, x, y, hf, hf', -, hl⟩ := h
  exact ⟨a, b, x, y, hf, hf', by simp, hl⟩

theorem Joined.encrypt {payload : Bytes} (hF : InOrder snow F) (h : Joined F (some n) up l down)
    (he : n.encryptChunked payload = (n', .ok cs)) :
    Joined F (some n') (up ++ cs.zip (pieces maxChunkPlain payload)) l down := by
  obtain ⟨a, b, x, y, hf, hf', hk, hl⟩ := h
  obtain ⟨a', x', hn', hf₁, hframe⟩ := (hk n rfl).encryptPieces hF hf he
  refine ⟨a', b, x', y, hf₁, hframe _ hf', ?_, hl⟩
  rintro _ ⟨⟩
  exact hn'

theorem Joined.encrypt_error {payload : Bytes} (hF : InOrder snow F)
    (h : Joined F (some n) up l down) (he : n.encryptChunked payload = (n', .error e)) :
    Joined F (some n') up l down := by
  obtain ⟨a, b, x, y, hf, hf', hk, hl⟩ := h
  obtain ⟨a', x', hf₁, hframe⟩ := (hk n rfl).encryptPieces_error hF hf he
  have hnone : n' = ⟨none⟩ := by
    have := (failStop_encryptPieces n (pieces maxChunkPlain payload)).eq_none e
    rw [show n.encryptPieces _ = (n', .error e) from he] at this
    exact this rfl
  refine ⟨a', b, x', y, hf₁, hframe _ hf', ?_, hl⟩
  rintro _ ⟨⟩
  exact Or.inl hnone

/-- A session in which no call has failed reads the next packet. -/
theorem Joined.read (hF : InOrder snow F) (h : Joined F k ((c, p) :: up) (some m) down)
    (hm : m ≠ ⟨none⟩) :
    ∃ m', m.readMessage c c.length = (m', .ok p) ∧ Joined F k up (some m') down := by
  obtain ⟨a, b, x, y, hf, hf', hk, hl⟩ := h
  rcases hl m rfl with rfl | ⟨rfl, rfl⟩
  · exact absurd rfl hm
  · obtain ⟨b', hr, hf₁, hframe⟩ := hF.read a c p (up ++ x) b hf
    refine ⟨⟨some (.transport b')⟩, by simp [NoiseSession.readMessage, hr], a, b', x, [], hf₁,
      hframe _ hf', hk, ?_⟩
    rintro _ ⟨⟩
    exact Or.inr ⟨rfl, rfl⟩

/-- The next message, written by the session `w`, reaches `r`. -/
def Comes (next : NoiseSession snow → NoiseSession snow → Prop) (m : Bytes)
    (w r : NoiseSession snow) : Prop :=
  ∃ p r', r.readMessage m 65535 = (r', .ok p) ∧ next w r'

/-- A handshake message from `w` to `r`. -/
def Passes (next : NoiseSession snow → NoiseSession snow → Prop) (w r : NoiseSession snow) : Prop :=
  ∃ m w', w.writeMessage [] 65535 = (w', .ok m) ∧ Comes next m w' r

/-- Both sessions are in transport mode, and nothing is on its way. -/
def Keyed (F : snow.Transport → List (Bytes × Bytes) → snow.Transport → Prop)
    (c s : NoiseSession snow) : Prop :=
  ∃ a b, c = ⟨some (.transport a)⟩ ∧ s = ⟨some (.transport b)⟩ ∧ F a [] b ∧ F b [] a

/-- `-> S, SE`. -/
def ThirdMessage (F : snow.Transport → List (Bytes × Bytes) → snow.Transport → Prop)
    (c s : NoiseSession snow) : Prop :=
  Passes (Keyed F) c s

/-- `<- E, EE, S, ES`. -/
def SecondMessage (F : snow.Transport → List (Bytes × Bytes) → snow.Transport → Prop)
    (s c : NoiseSession snow) : Prop :=
  Passes (fun s c => ThirdMessage F c s) s c

/-- The three messages of the XX pattern, the first of them `-> E`. -/
def Exchange (F : snow.Transport → List (Bytes × Bytes) → snow.Transport → Prop)
    (c s : NoiseSession snow) : Prop :=
  Passes (fun c s => SecondMessage F s c) c s

theorem Keyed.joined {c s : NoiseSession snow} (h : Keyed F c s) :
    Joined F (some c) [] (some s) [] := by
  obtain ⟨a, b, rfl, rfl, hf, hf'⟩ := h
  refine ⟨a, b, [], [], hf, hf', ?_, ?_⟩
  · rintro _ ⟨⟩
    exact Or.inr ⟨rfl, rfl⟩
  · rintro _ ⟨⟩
    exact Or.inr ⟨rfl, rfl⟩

end NoiseSession

namespace Ideal

/-- The packets from the `n`-th to before the `m`-th. -/
def Numbered (n m : ℕ) : List (Bytes × Bytes) → Prop
  | [] => n = m
  | (c, p) :: q => c = p ++ tag n ∧ Numbered (n + 1) m q

theorem Numbered.concat {n m : ℕ} {q : List (Bytes × Bytes)} (h : Numbered n m q) (p : Bytes) :
    Numbered n (m + 1) (q ++ [(p ++ tag m, p)]) := by
  induction q generalizing n with
  | nil =>
    obtain rfl : n = m := h
    exact ⟨rfl, rfl⟩
  | cons x q ih => exact ⟨h.1, ih h.2⟩

/-- What is on its way is numbered on from the reads. -/
def flight (a : Transport) (q : List (Bytes × Bytes)) (b : Transport) : Prop :=
  Numbered b.read a.written q

theorem inOrder : InOrder (Snow.ideal genuine) flight where
  write := by
    intro a q b p c a' h hw
    simp only [Snow.ideal] at hw
    split at hw
    · cases hw
      exact ⟨h.concat p, fun _ hr => hr⟩
    · cases hw
  read := by
    rintro a c p q b ⟨rfl, h⟩
    refine ⟨⟨b.written, b.read + 1⟩, ?_, h, fun _ hr => hr⟩
    simp [Snow.ideal, genuine, plain_append_tag]

theorem exchange {c s : NoiseSession (Snow.ideal genuine)} {priv key : Bytes}
    (hc : NoiseSession.client (Snow.ideal genuine) (.ok priv) none = .ok c)
    (hs : NoiseSession.server (Snow.ideal genuine) key = .ok s) (hk : key.length = 32) :
    c.Exchange flight s := by
  cases hc
  cases hs
  have hm : (messageTwo key).length = 96 := by simp [messageTwo, hk]
  let waiting : NoiseSession (Snow.ideal genuine) := ⟨some (.handshake ⟨true, priv, none, 1⟩)⟩
  let remote := ((messageTwo key).drop 32).take 32
  have hread : waiting.readMessage (messageTwo key) 65535 =
      (⟨some (.handshake ⟨true, priv, some remote, 2⟩)⟩, .ok []) := by
    simp [waiting, remote, NoiseSession.readMessage, NoiseSession.afterHandshake, Snow.ideal, read,
      hm]
  exact ⟨_, _, rfl, _, _, rfl, _, _, rfl, _, _, hread, _, _, rfl, _, _, rfl, _, _, rfl, rfl, rfl,
    rfl⟩

end Ideal

end NotifiTransport

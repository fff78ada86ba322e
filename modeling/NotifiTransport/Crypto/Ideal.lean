import NotifiTransport.Crypto.Channel
import NotifiTransport.Crypto.Pattern

/-! # An ideal channel

A functionality in place of the cryptography, which meets every assumption made about snow.
Messages of the handshake have their real lengths; message 2 carries the responder's static
key after its ephemeral one. A packet is the plaintext with the number of the write as its
tag. Which packet the `n`-th read takes is a parameter.
-/

namespace NotifiTransport

structure Ideal.Builder where
  priv : Bytes
  remote : Option Bytes

/-- A party of the handshake with the number of messages that have passed. -/
structure Ideal.Handshake where
  initiator : Bool
  priv : Bytes
  remote : Option Bytes
  passed : ℕ

structure Ideal.Transport where
  written : ℕ
  read : ℕ

namespace Ideal

/-- The 16 bytes behind the plaintext of the `n`-th packet. -/
def tag (n : ℕ) : Bytes := toLE32 n ++ List.replicate 12 0

@[simp] theorem length_tag (n : ℕ) : (tag n).length = 16 := by simp [tag]

/-- The packet ends with the tag of the `n`-th write. -/
def genuine (n : ℕ) (c : Bytes) : Bool := tag n <:+ c

/-- The plaintext of a packet. -/
def plain (c : Bytes) : Bytes := c.take (c.length - 16)

theorem plain_append_tag (p : Bytes) (n : ℕ) : plain (p ++ tag n) = p := by
  simp [plain]

/-- Public keys equal private keys here. -/
def messageTwo (key : Bytes) : Bytes := List.replicate 32 0 ++ key ++ List.replicate 32 0

def write (h : Handshake) (_payload : Bytes) (_buf : ℕ) : Except Text (Bytes × Handshake) :=
  match h.initiator, h.passed with
  | true, 0 => .ok (List.replicate 32 0, { h with passed := 1 })
  | false, 1 => .ok (messageTwo h.priv, { h with passed := 2 })
  | true, 2 => .ok (List.replicate 64 0, { h with passed := 3 })
  | _, _ => .error "not turn to write".toList

def read (h : Handshake) (m : Bytes) (_buf : ℕ) : Except Text (Bytes × Handshake) :=
  match h.initiator, h.passed, m.length with
  | false, 0, 32 => .ok ([], { h with passed := 1 })
  | true, 1, 96 => .ok ([], { h with remote := some ((m.drop 32).take 32), passed := 2 })
  | false, 2, 64 => .ok ([], { h with passed := 3 })
  | _, _, _ => .error "input error".toList

end Ideal

/-- The ideal functionality; `accepts n` is the test of the `n`-th read. -/
def Snow.ideal (accepts : ℕ → Bytes → Bool) : Snow where
  Builder := Ideal.Builder
  Handshake := Ideal.Handshake
  Transport := Ideal.Transport
  builder _ := .ok ⟨[], none⟩
  localPrivateKey b priv := .ok { b with priv }
  remotePublicKey b key :=
    if key.length = 32 then .ok { b with remote := some key } else .error "bad key".toList
  buildInitiator b := .ok ⟨true, b.priv, b.remote, 0⟩
  buildResponder b := .ok ⟨false, b.priv, b.remote, 0⟩
  writeHandshake := Ideal.write
  readHandshake := Ideal.read
  isHandshakeFinished h := h.passed == 3
  intoTransportMode h := if h.passed = 3 then .ok ⟨0, 0⟩ else .error "not finished".toList
  writeTransport t p n :=
    if p.length + 16 ≤ n ∧ p.length ≤ maxChunkPlain then
      .ok (p ++ Ideal.tag t.written, { t with written := t.written + 1 })
    else .error "input error".toList
  readTransport t c _ :=
    if accepts t.read c then .ok (Ideal.plain c, { t with read := t.read + 1 })
    else .error "decrypt error".toList

namespace Ideal

/-- Reads follow the writes of the peer. -/
theorem paired : Paired (Snow.ideal genuine) fun a b => a.written = b.read where
  write_read := by
    intro a b p hab hp
    refine ⟨p ++ tag a.written, ⟨a.written + 1, a.read⟩, ?_, by simp, ⟨b.written, b.read + 1⟩, ?_, ?_⟩
    · simp [Snow.ideal, hp]
    · simp [Snow.ideal, genuine, hab, plain_append_tag]
    · simp [hab]

/-- With a test for the packets of a list, nothing else is read. -/
theorem authentic (packets : List Bytes) :
    Authentic (Snow.ideal fun n c => packets[n]? == some c) (packets.map fun c => (c, plain c))
      Ideal.Transport.read where
  read := by
    intro s c n p s' h
    simp only [Snow.ideal] at h
    split at h
    · next hc =>
      cases h
      simp only [beq_iff_eq] at hc
      exact ⟨by simp [hc], rfl⟩
    · cases h
  write := by
    intro s p n c s' h
    simp only [Snow.ideal] at h
    split at h <;> cases h
    rfl

/-- An initiator that takes the static key from message 2. -/
def xx (accepts : ℕ → Bytes → Bool) : XX (Snow.ideal accepts) where
  hello _ := List.replicate 32 0
  presented _ m := if m.length = 96 then some ((m.drop 32).take 32) else none
  final _ _ := List.replicate 64 0
  Ready _ h := h.initiator = true ∧ h.passed = 0
  Waiting _ h := h.initiator = true ∧ h.passed = 1
  Answered _ _ h := h.initiator = true ∧ h.passed = 2
  client := by
    intro priv key noise h
    cases key with
    | none =>
      cases h
      exact ⟨_, rfl, rfl, rfl⟩
    | some k =>
      by_cases hk : k.length = 32
      · simp [NoiseSession.client, Snow.ideal, hk, bind, Except.bind, Except.mapError] at h
        cases h
        exact ⟨_, rfl, rfl, rfl⟩
      · simp [NoiseSession.client, Snow.ideal, hk, bind, Except.bind, Except.mapError] at h
  write_hello := by
    rintro priv ⟨i, p, r, n⟩ ⟨rfl, rfl⟩
    exact ⟨_, rfl, rfl, rfl, rfl⟩
  read_genuine := by
    rintro priv ⟨i, p, r, n⟩ m key ⟨rfl, rfl⟩ hk
    have hm : m.length = 96 := by
      by_contra hm
      simp [hm] at hk
    exact ⟨[], ⟨true, p, _, 2⟩, by simp [Snow.ideal, read, hm]; rfl, rfl, rfl, rfl⟩
  read_forged := by
    rintro priv ⟨i, p, r, n⟩ m ⟨rfl, rfl⟩ hk
    have hm : m.length ≠ 96 := by
      intro hm
      simp [hm] at hk
    exact ⟨_, by simp [Snow.ideal, read, hm]; rfl⟩
  write_final := by
    rintro priv m ⟨i, p, r, n⟩ ⟨rfl, rfl⟩
    exact ⟨_, _, rfl, rfl, rfl⟩

/-- A session that has just finished its handshake. -/
def session (accepts : ℕ → Bytes → Bool) : NoiseSession (Snow.ideal accepts) :=
  ⟨some (.transport ⟨0, 0⟩)⟩

end Ideal

end NotifiTransport

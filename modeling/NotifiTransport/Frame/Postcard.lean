import NotifiTransport.Frame.Basic
import NotifiTransport.Lib.Varint

/-! # Postcard at frames

The wire format of postcard for the frame record: the id and the kind as varints of 32 bits,
then the bytes with their number as a varint of 64 bits. Its errors are not told apart. It
meets the assumptions that the rest of the development makes about a serialiser.
-/

namespace NotifiTransport

/-- The discriminant of the kind in declaration order. -/
def FrameKind.discriminant : FrameKind → ℕ
  | message => 0
  | event => 1
  | ping => 2
  | pong => 3

def FrameKind.ofDiscriminant : ℕ → Option FrameKind
  | 0 => some message
  | 1 => some event
  | 2 => some ping
  | 3 => some pong
  | _ => none

@[simp] theorem FrameKind.ofDiscriminant_discriminant (k : FrameKind) :
    ofDiscriminant k.discriminant = some k := by
  cases k <;> rfl

namespace Postcard

def frameBytes (f : Frame) : Bytes :=
  varint 5 f.id.toNat ++ (varint 5 f.kind.discriminant ++ (varint 10 f.data.length ++ f.data))

def takeFrame (b : Bytes) : Option Frame := do
  let (id, b) ← takeVarint 5 b
  let (k, b) ← takeVarint 5 b
  let (n, b) ← takeVarint 10 b
  let kind ← FrameKind.ofDiscriminant k
  if id < 2 ^ 32 ∧ n < 2 ^ 64 ∧ n ≤ b.length then return ⟨.ofNat id, kind, b.take n⟩ else none

/-- The serialiser; a vector is shorter than `2 ^ 64` bytes. -/
def wire : Postcard where
  toStdvec f :=
    if f.data.length < 2 ^ 64 then .ok (frameBytes f)
    else .error "The serialize buffer is full".toList
  fromBytes b :=
    match takeFrame b with
    | some f => .ok f
    | none => .error "Hit the end of buffer, expected more data".toList

theorem takeFrame_frameBytes (f : Frame) (h : f.data.length < 2 ^ 64) :
    takeFrame (frameBytes f) = some f := by
  have hid : f.id.toNat < 2 ^ 32 := f.id.toNat_lt
  have h₁ := takeVarint_varint 5 (n := f.id.toNat) (by omega) (by decide)
    (varint 5 f.kind.discriminant ++ (varint 10 f.data.length ++ f.data))
  have h₂ := takeVarint_varint 5 (n := f.kind.discriminant) (by cases f.kind <;> decide) (by decide)
    (varint 10 f.data.length ++ f.data)
  have h₃ := takeVarint_varint 10 (n := f.data.length) (by omega) (by decide) f.data
  simp [takeFrame, frameBytes, h₁, h₂, h₃]
  omega

theorem wire_lawful : wire.Lawful where
  fromBytes_toStdvec f p h := by
    simp only [wire] at h ⊢
    split at h
    · next hlt =>
      cases h
      rw [takeFrame_frameBytes f hlt]
    · cases h
  three_le_length f p h := by
    simp only [wire] at h
    split at h
    · cases h
      have h₁ := length_varint_pos (k := 5) (by decide) f.id.toNat
      have h₂ := length_varint_pos (k := 5) (by decide) f.kind.discriminant
      have h₃ := length_varint_pos (k := 10) (by decide) f.data.length
      simp only [frameBytes, List.length_append]
      omega
    · cases h

end Postcard

end NotifiTransport

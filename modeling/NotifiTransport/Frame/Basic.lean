import NotifiTransport.Core.Error

/-! # Frames and their wire format

A frame is serialised by postcard and prefixed with its length. Postcard is a parameter:
`Postcard.Lawful` is what its documentation promises for this record.
-/

namespace NotifiTransport

inductive FrameKind where
  | message
  | event
  | ping
  | pong
  deriving DecidableEq, Repr

/-- The transport's message unit; `id` is `0` for events and matches responses to requests. -/
structure Frame where
  id : UInt32
  kind : FrameKind
  data : Bytes
  deriving DecidableEq, Repr

/-- The serialiser: `postcard::to_stdvec` and `postcard::from_bytes` at type `Frame`. -/
structure Postcard where
  toStdvec : Frame → Except Text Bytes
  fromBytes : Bytes → Except Text Frame

/-- `from_bytes` inverts `to_stdvec`, and no frame takes fewer than three bytes. -/
structure Postcard.Lawful (pc : Postcard) : Prop where
  fromBytes_toStdvec : ∀ f p, pc.toStdvec f = .ok p → pc.fromBytes p = .ok f
  three_le_length : ∀ f p, pc.toStdvec f = .ok p → 3 ≤ p.length

variable (pc : Postcard)

/-- Encode a frame into a length-prefixed byte string. The length is cast to `u32`. -/
def encodeFrame (f : Frame) : Except TransportError Bytes :=
  match pc.toStdvec f with
  | .error e => .error (.encodeError e)
  | .ok payload => .ok (toLE32 payload.length ++ payload)

/-- Decode a frame from the bytes that follow the length prefix. -/
def decodeFrame (data : Bytes) : Except TransportError Frame :=
  match pc.fromBytes data with
  | .error e => .error (.decodeError e)
  | .ok f => .ok f

variable {pc} {f : Frame} {p : Bytes}

theorem encodeFrame_of_payload (h : pc.toStdvec f = .ok p) :
    encodeFrame pc f = .ok (toLE32 p.length ++ p) := by
  simp [encodeFrame, h]

theorem encodeFrame_eq_ok {b : Bytes} (h : encodeFrame pc f = .ok b) :
    ∃ p, pc.toStdvec f = .ok p ∧ b = toLE32 p.length ++ p := by
  unfold encodeFrame at h
  split at h
  · cases h
  · next p hp => exact ⟨p, hp, by cases h; rfl⟩

theorem Postcard.Lawful.decodeFrame_payload (hpc : pc.Lawful) (h : pc.toStdvec f = .ok p) :
    decodeFrame pc p = .ok f := by
  simp [decodeFrame, hpc.fromBytes_toStdvec f p h]

end NotifiTransport

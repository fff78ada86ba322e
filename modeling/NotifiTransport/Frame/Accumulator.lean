import NotifiTransport.Frame.Basic

/-! # Frame reassembly

`FrameAccumulator` collects decrypted chunks until the announced number of bytes is
there. An accumulator is idle when it waits for a length prefix.
-/

namespace NotifiTransport

structure FrameAccumulator where
  expectedLen : ℕ
  buffer : Bytes
  deriving DecidableEq, Repr

namespace FrameAccumulator

def new : FrameAccumulator := ⟨0, []⟩

/-- The common end of both branches of `feed`: hand out the frame once it is complete. -/
def complete (acc : FrameAccumulator) :
    FrameAccumulator × Except TransportError (Option Bytes) :=
  if acc.expectedLen ≤ acc.buffer.length then
    (⟨0, []⟩, .ok (some (acc.buffer.take acc.expectedLen)))
  else (acc, .ok none)

/-- Feed a decrypted chunk. The accumulator is returned with every result, since an
error leaves the fields as they were at the point of return. -/
def feed (acc : FrameAccumulator) (chunk : Bytes) (maxBytes : ℕ) :
    FrameAccumulator × Except TransportError (Option Bytes) :=
  if acc.expectedLen = 0 then
    if chunk.length < 4 then
      (acc, .error (.decodeError "frame too short for length prefix".toList))
    else
      let len := ofLE (chunk.take 4)
      if maxBytes < len then
        (⟨len, acc.buffer⟩, .error (.payloadTooLarge maxBytes))
      else complete ⟨len, chunk.drop 4⟩
  else
    let buffer := acc.buffer ++ chunk
    if maxBytes < buffer.length then
      (⟨acc.expectedLen, buffer⟩, .error (.payloadTooLarge maxBytes))
    else complete ⟨acc.expectedLen, buffer⟩

section

variable {acc : FrameAccumulator} {len maxBytes : ℕ} {got chunk : Bytes}

theorem complete_partial (h : got.length < len) :
    complete ⟨len, got⟩ = (⟨len, got⟩, .ok none) := by
  simp [complete, Nat.not_le.mpr h]

theorem complete_exact (p : Bytes) : complete ⟨p.length, p⟩ = (new, .ok (some p)) := by
  simp [complete, new]

/-- The first chunk of a frame, with at least the four bytes of the prefix. -/
theorem feed_idle (h : acc.expectedLen = 0) (hl : len < 2 ^ 32) (hm : len ≤ maxBytes) :
    feed acc (toLE32 len ++ got) maxBytes = complete ⟨len, got⟩ := by
  have h4 : ¬ (toLE32 len ++ got).length < 4 := by simp
  rw [feed, if_pos h, if_neg h4, take_toLE32_append, drop_toLE32_append,
    ofLE_toLE32_of_lt hl]
  exact if_neg (Nat.not_lt.mpr hm)

theorem feed_idle_too_large (h : acc.expectedLen = 0) (hl : len < 2 ^ 32) (hm : maxBytes < len) :
    feed acc (toLE32 len ++ got) maxBytes =
      (⟨len, acc.buffer⟩, .error (.payloadTooLarge maxBytes)) := by
  have h4 : ¬ (toLE32 len ++ got).length < 4 := by simp
  rw [feed, if_pos h, if_neg h4, take_toLE32_append, ofLE_toLE32_of_lt hl]
  exact if_pos hm

/-- A later chunk that stays within the limit. -/
theorem feed_busy (h : 0 < len) (hm : (got ++ chunk).length ≤ maxBytes) :
    feed ⟨len, got⟩ chunk maxBytes = complete ⟨len, got ++ chunk⟩ := by
  rw [feed, if_neg h.ne']
  exact if_neg (Nat.not_lt.mpr hm)

end

end FrameAccumulator

end NotifiTransport

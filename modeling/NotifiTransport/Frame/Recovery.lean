import NotifiTransport.Frame.Reassembly

/-! # The accumulator after a refused chunk

A chunk that is too short for a length prefix changes nothing. The other two refusals come after the
fields were changed: the expected length stays, and with it the next frame is read as the rest of
the refused one.
-/

namespace NotifiTransport

namespace FrameAccumulator

/-- Any whole frame within the limit is returned as it is. -/
def Recovers (maxBytes : ℕ) (acc : FrameAccumulator) : Prop :=
  ∀ p : Bytes, p.length < 2 ^ 32 → p.length ≤ maxBytes →
    (acc.feed (toLE32 p.length ++ p) maxBytes).2 = .ok (some p)

variable {acc acc' : FrameAccumulator} {maxBytes : ℕ} {chunk : Bytes} {e : TransportError}
  {cs : List Bytes}

theorem Idle.recovers (h : acc.Idle) : acc.Recovers maxBytes := by
  intro p hlt hm
  rw [feed_idle h hlt hm, complete_exact]

/-- A busy accumulator does not return the empty frame: it takes the prefix for data. -/
theorem Recovers.idle (h : acc.Recovers maxBytes) : acc.Idle := by
  by_contra hbusy
  have hne : acc.expectedLen ≠ 0 := hbusy
  have hzero := h [] (by simp) (Nat.zero_le _)
  simp only [feed, if_neg hne] at hzero
  split at hzero
  · cases hzero
  · rcases hc : complete ⟨acc.expectedLen, acc.buffer ++ (toLE32 ([] : Bytes).length ++ [])⟩ with
      ⟨acc', r⟩
    rw [hc] at hzero
    obtain rfl : r = .ok (some []) := hzero
    rcases complete_ok hc with ⟨hr, -, -⟩ | ⟨hr, -, hle⟩
    · cases hr
    · have htake := congrArg List.length (Option.some.inj hr)
      rw [List.length_take, Nat.min_eq_left hle] at htake
      exact hne htake.symm

theorem recovers_iff : acc.Recovers maxBytes ↔ acc.Idle := by
  constructor
  · exact Recovers.idle
  · exact Idle.recovers

theorem complete_ne_error (h : complete acc = (acc', .error e)) : False := by
  unfold complete at h
  split at h <;> cases h

/-- The three refusals, and what each leaves in the expected length. -/
theorem feed_error (h : acc.feed chunk maxBytes = (acc', .error e)) :
    (acc.Idle ∧ chunk.length < 4 ∧ acc' = acc) ∨
      (acc.Idle ∧ 4 ≤ chunk.length ∧ acc'.expectedLen = ofLE (chunk.take 4) ∧
        maxBytes < acc'.expectedLen) ∨
      (¬ acc.Idle ∧ acc'.expectedLen = acc.expectedLen ∧
        maxBytes < (acc.buffer ++ chunk).length) := by
  unfold feed at h
  split at h
  · next hidle =>
    split at h
    · next h4 =>
      cases h
      exact Or.inl ⟨hidle, h4, rfl⟩
    · next h4 =>
      dsimp only at h
      split at h
      · next hm =>
        cases h
        exact Or.inr (Or.inl ⟨hidle, not_lt.mp h4, rfl, hm⟩)
      · exact (complete_ne_error h).elim
  · next hbusy =>
    dsimp only at h
    split at h
    · next hm =>
      cases h
      exact Or.inr (Or.inr ⟨hbusy, rfl, hm⟩)
    · exact (complete_ne_error h).elim

theorem feed_error_idle_iff (h : acc.feed chunk maxBytes = (acc', .error e)) :
    acc'.Idle ↔ acc.Idle ∧ chunk.length < 4 := by
  rcases feed_error h with ⟨hidle, h4, rfl⟩ | ⟨-, h4, -, hm⟩ | ⟨hbusy, heq, -⟩
  · exact ⟨fun _ => ⟨hidle, h4⟩, fun _ => hidle⟩
  · constructor
    · intro hidle
      unfold Idle at hidle
      omega
    · rintro ⟨-, hlt⟩
      omega
  · constructor
    · intro hidle
      exact absurd (heq.symm.trans hidle) hbusy
    · rintro ⟨hidle, -⟩
      exact absurd hidle hbusy

/-- After any chunks, a refused chunk leaves the accumulator idle and able to return whatever frame
comes next exactly when it was refused for being too short for a length prefix. -/
theorem feed_error_recovers_iff (cs : List Bytes)
    (h : ((feedAll new maxBytes cs).1.feed chunk maxBytes).2 = .error e) :
    (((feedAll new maxBytes cs).1.feed chunk maxBytes).1.Idle ∧
      ((feedAll new maxBytes cs).1.feed chunk maxBytes).1.Recovers maxBytes) ↔
      (feedAll new maxBytes cs).1.Idle ∧ chunk.length < 4 := by
  have hfeed : (feedAll new maxBytes cs).1.feed chunk maxBytes =
      (((feedAll new maxBytes cs).1.feed chunk maxBytes).1, .error e) := by
    rw [← h]
  rw [recovers_iff, and_self]
  exact feed_error_idle_iff hfeed

/-- Two bytes after a whole frame. -/
theorem feed_error_recovers_short :
    (((feedAll new 9 [toLE32 1 ++ [7]]).1.feed [0, 1] 9).1.Idle ∧
      ((feedAll new 9 [toLE32 1 ++ [7]]).1.feed [0, 1] 9).1.Recovers 9) ↔
      (feedAll new 9 [toLE32 1 ++ [7]]).1.Idle ∧ ([0, 1] : Bytes).length < 4 :=
  feed_error_recovers_iff (e := .decodeError "frame too short for length prefix".toList) _ rfl

/-- A declared length above the limit is refused, and the frame after it is swallowed. -/
theorem feed_error_not_idle :
    (feed new (toLE32 5000 ++ [0, 0, 0, 0, 0, 0]) 1000).2 = .error (.payloadTooLarge 1000) ∧
      ¬ (feed new (toLE32 5000 ++ [0, 0, 0, 0, 0, 0]) 1000).1.Idle ∧
      ((feed new (toLE32 5000 ++ [0, 0, 0, 0, 0, 0]) 1000).1.feed (toLE32 1 ++ [7]) 1000).2 =
        .ok none := by
  constructor
  · rfl
  · constructor
    · unfold Idle
      decide
    · rfl

end FrameAccumulator

end NotifiTransport

import NotifiTransport.Frame.Delivery
import NotifiTransport.Lib.Mealy

/-! # The receiving side of a connection

What the message loops of the client and of the server have in common: they read packets on
a session on which they also write, and stop at the first packet they reject. The frames
that come out are a prefix of the frames that the peer sent, whatever packets go in.
-/

namespace NotifiTransport

variable {pc : Postcard} {snow : Snow} {maxBytes : ℕ}

inductive ReceiverInput where
  | packet (data : Bytes)
  | write (payload : Bytes)
  | stop

/-- The receiver; `none` once it has stopped. -/
def receiver (pc : Postcard) (maxBytes : ℕ) (snow : Snow) :
    Mealy (Option (NoiseSession snow × FrameAccumulator)) ReceiverInput Frame where
  step
    | none, _ => none
    | some (noise, acc), .packet data =>
      match receive pc noise acc data maxBytes with
      | .error _ => some (none, [])
      | .ok (noise, acc, f) => some (some (noise, acc), f.toList)
    | some (noise, acc), .write payload => some (some ((noise.encryptChunked payload).1, acc), [])
    | some _, .stop => some (none, [])

theorem receiver_none {is : List ReceiverInput}
    {t : Option (NoiseSession snow × FrameAccumulator)} {tr : List Frame}
    (h : (receiver pc maxBytes snow).run none is = some (t, tr)) : tr = [] := by
  cases is with
  | nil => exact (Mealy.run_nil.mp h).2
  | cons i is =>
    obtain ⟨s, o, tr', hs, -, -⟩ := Mealy.run_cons.mp h
    cases hs

section Authentic

open NoiseSession

variable {sent : List (Bytes × Bytes)} {pos : snow.Transport → ℕ} {k : ℕ}
  {noise : NoiseSession snow} {acc : FrameAccumulator} {chunks : List Bytes} {fs : List Frame}

/-- After `j` reads the receiver has absorbed the first `j` chunks; a receiver that has
stopped has made no more of the chunks than that. -/
def Absorbed (pc : Postcard) (maxBytes : ℕ) (pos : snow.Transport → ℕ) (k : ℕ)
    (chunks : List Bytes) (tr : List Frame) :
    Option (NoiseSession snow × FrameAccumulator) → Prop
  | none => tr <+: (absorbAll pc .new maxBytes chunks).1
  | some (noise, acc) => ∃ j, AtPos pos (k + j) noise ∧
      absorbAll pc .new maxBytes (chunks.take j) = (tr, .ok acc)

theorem Absorbed.le {tr : List Frame} {s : Option (NoiseSession snow × FrameAccumulator)}
    (h : Absorbed pc maxBytes pos k chunks tr s) :
    tr <+: (absorbAll pc .new maxBytes chunks).1 := by
  rcases s with _ | ⟨noise, acc⟩
  · exact h
  · obtain ⟨j, -, hj⟩ := h
    have hp : (absorbAll pc .new maxBytes (chunks.take j)).1 <+:
        (absorbAll pc .new maxBytes (chunks.take j ++ chunks.drop j)).1 := absorbAll_append_le
    rwa [hj, List.take_append_drop] at hp

theorem Absorbed.stop {tr : List Frame} {s : Option (NoiseSession snow × FrameAccumulator)}
    (h : Absorbed pc maxBytes pos k chunks tr s) :
    Absorbed pc maxBytes pos k chunks (tr ++ []) none := by
  rw [List.append_nil]
  exact h.le

theorem receive_ok {noise' : NoiseSession snow} {acc' : FrameAccumulator} {data : Bytes}
    {f : Option Frame} (h : receive pc noise acc data maxBytes = .ok (noise', acc', f)) :
    ∃ p, noise.readMessage data data.length = (noise', .ok p) ∧
      absorb pc acc p maxBytes = .ok (acc', f) := by
  unfold receive at h
  split at h
  · cases h
  · next noise₁ p hr =>
    rcases ha : absorb pc acc p maxBytes with e | ⟨acc₁, g⟩
    · simp [ha, Except.map] at h
    · simp only [ha, Except.map, Except.ok.injEq, Prod.mk.injEq] at h
      obtain ⟨rfl, rfl, rfl⟩ := h
      exact ⟨p, hr, ha⟩

/-- The run of a receiver against an attacker who delivers packets of his choice. -/
theorem receiver_absorbed (hA : Authentic snow sent pos)
    (hsent : (sent.drop k).map Prod.snd = chunks) (hn : AtPos pos k noise)
    {is : List ReceiverInput} {t : Option (NoiseSession snow × FrameAccumulator)}
    {tr : List Frame}
    (h : (receiver pc maxBytes snow).run (some (noise, .new)) is = some (t, tr)) :
    Absorbed pc maxBytes pos k chunks tr t := by
  refine Mealy.run_induction (P := fun _ tr t => Absorbed pc maxBytes pos k chunks tr t)
    (show Absorbed pc maxBytes pos k chunks [] (some (noise, .new)) from ⟨0, hn, rfl⟩) ?_ h
  rintro is tr s i s' o - ha hs
  rcases s with _ | ⟨noise, acc⟩
  · cases hs
  · cases i with
    | packet data =>
      simp only [receiver] at hs
      split at hs
      · cases hs
        exact ha.stop
      · next noise' acc' f hr =>
        cases hs
        obtain ⟨j, hj, hab⟩ := ha
        obtain ⟨p, hread, hp⟩ := receive_ok hr
        obtain ⟨hpos, hnext⟩ := hj.readMessage hA hread
        have hc : chunks[j]? = some p := by
          rw [← hsent]
          simp [hpos]
        refine ⟨j + 1, hnext, ?_⟩
        rw [List.take_add_one, hc]
        exact absorbAll_concat hab hp
    | write payload =>
      cases hs
      obtain ⟨j, hj, hab⟩ := ha
      exact ⟨j, hj.encryptChunked hA payload, by simpa using hab⟩
    | stop =>
      cases hs
      exact ha.stop

/-- The frames received are a prefix of the frames sent. -/
theorem receiver_le (hpc : pc.Lawful) (hb : PayloadsBelow pc (2 ^ 32) fs)
    (hc : plainChunks pc fs = .ok chunks) (hA : Authentic snow sent pos)
    (hsent : (sent.drop k).map Prod.snd = chunks) (hn : AtPos pos k noise)
    {is : List ReceiverInput} {t : Option (NoiseSession snow × FrameAccumulator)}
    {tr : List Frame}
    (h : (receiver pc maxBytes snow).run (some (noise, .new)) is = some (t, tr)) : tr <+: fs :=
  (receiver_absorbed hA hsent hn h).le.trans (absorbAll_plainChunks_le hpc hb hc rfl)

end Authentic

end NotifiTransport

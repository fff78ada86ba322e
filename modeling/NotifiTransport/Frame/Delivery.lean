import NotifiTransport.Frame.Transfer

/-! # Delivery between two peers

What `sendFrames` writes on one session is what the other session reads back. The receiver
takes one packet at a time; `receiveAll` is its loop over a list of packets.
-/

namespace NotifiTransport

variable {pc : Postcard} {snow : Snow} {fs gs : List Frame} {f : Frame} {p : Bytes}
  {cs ps packets : List Bytes} {acc acc' : FrameAccumulator} {maxBytes : ℕ}

/-- Receive packets until one is rejected. -/
def receiveAll (pc : Postcard) (noise : NoiseSession snow) (acc : FrameAccumulator)
    (maxBytes : ℕ) :
    List Bytes → Except TransportError (NoiseSession snow × FrameAccumulator × List Frame)
  | [] => .ok (noise, acc, [])
  | c :: cs => do
    let (noise, acc, f) ← receive pc noise acc c maxBytes
    let (noise, acc, fs) ← receiveAll pc noise acc maxBytes cs
    return (noise, acc, f.toList ++ fs)

theorem absorbAll_cons_ok {c : Bytes} (h : absorbAll pc acc maxBytes (c :: cs) = (fs, .ok acc')) :
    ∃ mid g gs, absorb pc acc c maxBytes = .ok (mid, g) ∧
      absorbAll pc mid maxBytes cs = (gs, .ok acc') ∧ fs = g.toList ++ gs := by
  rw [absorbAll] at h
  split at h
  · cases h
  · next mid g hc =>
    obtain ⟨rfl, hr⟩ := Prod.mk.inj h
    exact ⟨mid, g, _, hc, Prod.ext rfl hr, rfl⟩

theorem receiveAll_cons_ok {b b' : NoiseSession snow} {c : Bytes}
    (h : receiveAll pc b acc maxBytes (c :: cs) = .ok (b', acc', fs)) :
    ∃ b₁ acc₁ g gs, receive pc b acc c maxBytes = .ok (b₁, acc₁, g) ∧
      receiveAll pc b₁ acc₁ maxBytes cs = .ok (b', acc', gs) ∧ fs = g.toList ++ gs := by
  rcases hr : receive pc b acc c maxBytes with e | ⟨b₁, acc₁, g⟩
  · simp [receiveAll, hr, bind, Except.bind] at h
  · rcases ha : receiveAll pc b₁ acc₁ maxBytes cs with e | ⟨b₂, acc₂, gs⟩
    · simp [receiveAll, hr, ha, bind, Except.bind] at h
    · simp only [receiveAll, hr, ha, bind, Except.bind, pure, Except.pure, Except.ok.injEq,
        Prod.mk.injEq] at h
      obtain ⟨rfl, rfl, rfl⟩ := h
      exact ⟨b₁, acc₁, g, gs, rfl, ha, rfl⟩

section

variable {a a' b b' : NoiseSession snow}

open NoiseSession

theorem receive_of_read {c : Bytes} {g : Option Frame}
    (hr : b.readMessage c c.length = (b', .ok p))
    (h : absorb pc acc p maxBytes = .ok (acc', g)) :
    receive pc b acc c maxBytes = .ok (b', acc', g) := by
  simp [receive, hr, h, Except.map]

theorem NoiseSession.Reads.receiveAll (hr : Reads b cs ps b')
    (h : absorbAll pc acc maxBytes ps = (fs, .ok acc')) :
    receiveAll pc b acc maxBytes cs = .ok (b', acc', fs) := by
  induction hr generalizing acc fs with
  | nil b => cases h; rfl
  | cons hc _ ih =>
    obtain ⟨mid, g, gs, hg, hgs, rfl⟩ := absorbAll_cons_ok h
    simp [NotifiTransport.receiveAll, receive_of_read hc hg, ih hgs, bind, Except.bind, pure,
      Except.pure]

/-- The packets of the frames are in step with their plaintext chunks. -/
theorem sendFrames_ok (h : sendFrames pc a fs = (a', .ok packets)) :
    ∃ chunks, plainChunks pc fs = .ok chunks ∧ chunks.length = packets.length := by
  induction fs generalizing a packets with
  | nil => cases h; exact ⟨[], rfl, rfl⟩
  | cons f fs ih =>
    rw [sendFrames] at h
    split at h
    · cases h
    · next encoded he =>
      split at h
      · cases h
      · next hs =>
        split at h
        · cases h
        · next hfs =>
          cases h
          obtain ⟨chunks, hc, hl⟩ := ih hfs
          obtain ⟨p, hp, rfl⟩ := encodeFrame_eq_ok he
          exact ⟨_, plainChunks_cons hp hc, by simp [hl, length_encryptPieces hs]⟩

theorem sendFrames_cons {cs ds : List Bytes} {a₁ a₂ : NoiseSession snow}
    (hp : pc.toStdvec f = .ok p)
    (hs : a.encryptChunked (toLE32 p.length ++ p) = (a₁, .ok cs))
    (h : sendFrames pc a₁ fs = (a₂, .ok ds)) :
    sendFrames pc a (f :: fs) = (a₂, .ok (cs ++ ds)) := by
  simp [sendFrames, encodeFrame_of_payload hp, hs, h]

/-- Whatever frames a peer sends, the other peer can read their chunks. -/
theorem NoiseSession.Peers.sendFrames {R : snow.Transport → snow.Transport → Prop}
    (hR : Paired snow R)
    (h : Peers R a b) (hf : ∀ f ∈ fs, ∃ p, pc.toStdvec f = .ok p) :
    ∃ packets chunks a' b', sendFrames pc a fs = (a', .ok packets) ∧
      plainChunks pc fs = .ok chunks ∧ Reads b packets chunks b' ∧ Peers R a' b' := by
  induction fs generalizing a b with
  | nil => exact ⟨[], [], a, b, rfl, rfl, .nil b, h⟩
  | cons f fs ih =>
    obtain ⟨p, hp⟩ := hf f List.mem_cons_self
    obtain ⟨cs, a₁, b₁, hs, hr, h₁⟩ := h.encryptChunked hR (toLE32 p.length ++ p)
    obtain ⟨ds, qs, a₂, b₂, hds, hqs, hr', h₂⟩ := ih h₁ fun g hg => hf g (List.mem_cons_of_mem _ hg)
    exact ⟨cs ++ ds, _, a₂, b₂, sendFrames_cons hp hs hds, plainChunks_cons hp hqs,
      hr.append hr', h₂⟩

end

end NotifiTransport

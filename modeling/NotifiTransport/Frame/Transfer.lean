import NotifiTransport.Crypto.Channel
import NotifiTransport.Frame.Reassembly

/-! # Frames over an encrypted connection

The sender encodes a frame, cuts it into pieces and encrypts each. The receiver decrypts
one packet for each WS message, feeds the accumulator and decodes a completed frame.
`absorb` is the receiver without decryption. On the pieces of a list of frames it returns
these frames, and on a prefix of the pieces a prefix of the frames.
-/

namespace NotifiTransport

variable (pc : Postcard) {snow : Snow}

/-- Feed one decrypted chunk and decode the frame it completes, if any. -/
def absorb (acc : FrameAccumulator) (chunk : Bytes) (maxBytes : ℕ) :
    Except TransportError (FrameAccumulator × Option Frame) :=
  match acc.feed chunk maxBytes with
  | (_, .error e) => .error e
  | (acc, .ok none) => .ok (acc, none)
  | (acc, .ok (some frameBytes)) => (decodeFrame pc frameBytes).map fun f => (acc, some f)

/-- The receive path that the two message loops and `recv_one_frame` share. -/
def receive (noise : NoiseSession snow) (acc : FrameAccumulator) (data : Bytes) (maxBytes : ℕ) :
    Except TransportError (NoiseSession snow × FrameAccumulator × Option Frame) :=
  match noise.readMessage data data.length with
  | (_, .error e) => .error (.noiseDecryptFailed e.toText)
  | (noise, .ok decrypted) => (absorb pc acc decrypted maxBytes).map fun r => (noise, r)

/-- Absorb chunks until one is rejected; the frames completed so far are kept. -/
def absorbAll (acc : FrameAccumulator) (maxBytes : ℕ) :
    List Bytes → List Frame × Except TransportError FrameAccumulator
  | [] => ([], .ok acc)
  | c :: cs =>
    match absorb pc acc c maxBytes with
    | .error e => ([], .error e)
    | .ok (acc, f) =>
      let r := absorbAll acc maxBytes cs
      (f.toList ++ r.1, r.2)

/-- The plaintext chunks of the frames, in the order in which they are encrypted. -/
def plainChunks : List Frame → Except TransportError (List Bytes)
  | [] => .ok []
  | f :: fs => do
    let encoded ← encodeFrame pc f
    let rest ← plainChunks fs
    return pieces maxChunkPlain encoded ++ rest

/-- Encode and encrypt the frames one after another on one session. -/
def sendFrames (noise : NoiseSession snow) :
    List Frame → NoiseSession snow × Except TransportError (List Bytes)
  | [] => (noise, .ok [])
  | f :: fs =>
    match encodeFrame pc f with
    | .error e => (noise, .error e)
    | .ok encoded =>
      match noise.encryptChunked encoded with
      | (noise, .error e) => (noise, .error (.noiseEncryptFailed e.toText))
      | (noise, .ok packets) =>
        match sendFrames noise fs with
        | (noise, .error e) => (noise, .error e)
        | (noise, .ok rest) => (noise, .ok (packets ++ rest))

variable {pc} {acc acc' : FrameAccumulator} {maxBytes : ℕ} {cs ds : List Bytes} {f : Frame}
  {fs gs : List Frame} {p q : Bytes}

theorem absorbAll_append (h : absorbAll pc acc maxBytes cs = (fs, .ok acc')) :
    absorbAll pc acc maxBytes (cs ++ ds) =
      (fs ++ (absorbAll pc acc' maxBytes ds).1, (absorbAll pc acc' maxBytes ds).2) := by
  induction cs generalizing acc fs with
  | nil => cases h; rfl
  | cons c cs ih =>
    simp only [List.cons_append, absorbAll] at h ⊢
    split at h
    · cases h
    · obtain ⟨rfl, hr⟩ := Prod.mk.inj h
      rw [ih (Prod.ext rfl hr)]
      simp

theorem absorbAll_append_error {e : TransportError}
    (h : absorbAll pc acc maxBytes cs = (fs, .error e)) :
    absorbAll pc acc maxBytes (cs ++ ds) = (fs, .error e) := by
  induction cs generalizing acc fs with
  | nil => cases h
  | cons c cs ih =>
    simp only [List.cons_append, absorbAll] at h ⊢
    split at h
    · exact h
    · obtain ⟨rfl, hr⟩ := Prod.mk.inj h
      rw [ih (Prod.ext rfl hr)]

theorem absorbAll_concat (h : absorbAll pc acc maxBytes cs = (fs, .ok acc'))
    {acc'' : FrameAccumulator} {g : Option Frame}
    (hc : absorb pc acc' p maxBytes = .ok (acc'', g)) :
    absorbAll pc acc maxBytes (cs ++ [p]) = (fs ++ g.toList, .ok acc'') := by
  rw [absorbAll_append h]
  simp [absorbAll, hc]

/-- Absorbing more chunks only adds frames at the end. -/
theorem absorbAll_append_le : (absorbAll pc acc maxBytes cs).1 <+:
    (absorbAll pc acc maxBytes (cs ++ ds)).1 := by
  rcases h : absorbAll pc acc maxBytes cs with ⟨fs, e | acc'⟩
  · simp only [absorbAll_append_error h, List.prefix_refl]
  · rw [absorbAll_append h]
    exact List.prefix_append _ _

/-- The chunks hold one frame, which the last of them completes. -/
inductive Assembles (pc : Postcard) (maxBytes : ℕ) (f : Frame) :
    FrameAccumulator → List Bytes → Prop where
  | last {acc : FrameAccumulator} {c : Bytes} :
      absorb pc acc c maxBytes = .ok (.new, some f) → Assembles pc maxBytes f acc [c]
  | more {acc acc' : FrameAccumulator} {c : Bytes} {cs : List Bytes} :
      absorb pc acc c maxBytes = .ok (acc', none) → Assembles pc maxBytes f acc' cs →
      Assembles pc maxBytes f acc (c :: cs)

theorem Assembles.absorbAll (h : Assembles pc maxBytes f acc cs) :
    absorbAll pc acc maxBytes cs = ([f], .ok .new) := by
  induction h with
  | last hc => simp [NotifiTransport.absorbAll, hc]
  | more hc _ ih => simp [NotifiTransport.absorbAll, hc, ih]

/-- Chunks of which only the last returns a payload assemble the frame that it decodes to. -/
theorem assembles_of_feedAll {n : ℕ} (hd : decodeFrame pc p = .ok f)
    (h : acc.feedAll maxBytes cs = (.new, List.replicate n (.ok none) ++ [.ok (some p)])) :
    Assembles pc maxBytes f acc cs := by
  induction n generalizing acc cs with
  | zero =>
    cases cs with
    | nil => cases h
    | cons c cs =>
      obtain ⟨hacc, hres⟩ := Prod.mk.inj h
      obtain ⟨hlast, hrest⟩ := List.cons.inj hres
      obtain rfl : cs = [] := by
        rw [← List.length_eq_zero_iff, ← FrameAccumulator.length_feedAll _ maxBytes, hrest]
        rfl
      have hfeed : acc.feed c maxBytes = (.new, .ok (some p)) := Prod.ext hacc hlast
      exact .last (by simp [absorb, hfeed, hd, Except.map])
  | succ n ih =>
    cases cs with
    | nil => cases h
    | cons c cs =>
      obtain ⟨hacc, hres⟩ := Prod.mk.inj h
      obtain ⟨hmore, hrest⟩ := List.cons.inj hres
      have hfeed : acc.feed c maxBytes = ((acc.feed c maxBytes).1, .ok none) := Prod.ext rfl hmore
      exact .more (by rw [absorb, hfeed]) (ih (Prod.ext hacc hrest))

/-- One frame, cut anywhere after the first four bytes, comes back in one piece. -/
theorem assembles_frame {c : Bytes} (hd : decodeFrame pc p = .ok f) (hp : p.length < 2 ^ 32)
    (hm : p.length ≤ maxBytes) (hi : acc.expectedLen = 0)
    (hc : c ++ cs.flatten = toLE32 p.length ++ p) (h4 : 4 ≤ c.length) (hne : ∀ d ∈ cs, d ≠ []) :
    Assembles pc maxBytes f acc (c :: cs) :=
  assembles_of_feedAll hd (FrameAccumulator.feedAll_cut hi hp hm hc h4 hne)

/-- A frame above the limit is refused with its first chunk. -/
theorem absorbAll_too_large {c : Bytes} (hp : p.length < 2 ^ 32) (hm : maxBytes < p.length)
    (hi : acc.expectedLen = 0) (hc : ∃ q, c = toLE32 p.length ++ q) :
    absorbAll pc acc maxBytes (c :: cs) = ([], .error (.payloadTooLarge maxBytes)) := by
  obtain ⟨q, rfl⟩ := hc
  simp [absorbAll, absorb, FrameAccumulator.feed_idle_too_large hi hp hm]

/-- The pieces of an encoded frame: the first one holds the whole length prefix. -/
theorem pieces_encoded (p : Bytes) : ∃ q cs, pieces maxChunkPlain (toLE32 p.length ++ p) =
      (toLE32 p.length ++ q) :: cs ∧ (toLE32 p.length ++ q) ++ cs.flatten = toLE32 p.length ++ p ∧
      ∀ d ∈ cs, d ≠ [] := by
  obtain ⟨cs, hcs⟩ := pieces_eq_cons (n := maxChunkPlain) (l := toLE32 p.length ++ p)
    (by simp [toLE32])
  have hq : (toLE32 p.length ++ p).take maxChunkPlain =
      toLE32 p.length ++ p.take (maxChunkPlain - 4) := by
    rw [List.take_append, List.take_of_length_le (by rw [length_toLE32]; decide), length_toLE32]
  have hf := flatten_pieces (n := maxChunkPlain) (by decide) (toLE32 p.length ++ p)
  rw [hcs, hq, List.flatten_cons] at hf
  refine ⟨_, cs, hcs.trans (by rw [hq]), hf, fun d hd => ?_⟩
  exact ne_nil_of_mem_pieces (n := maxChunkPlain) (by decide) (hcs ▸ List.mem_cons_of_mem _ hd)

theorem assembles_pieces (hd : decodeFrame pc p = .ok f) (hp : p.length < 2 ^ 32)
    (hm : p.length ≤ maxBytes) (hi : acc.expectedLen = 0) :
    Assembles pc maxBytes f acc (pieces maxChunkPlain (toLE32 p.length ++ p)) := by
  obtain ⟨q, cs, hcs, hf, hne⟩ := pieces_encoded p
  rw [hcs]
  exact assembles_frame hd hp hm hi hf (by simp) hne

theorem absorbAll_pieces_too_large (hp : p.length < 2 ^ 32) (hm : maxBytes < p.length)
    (hi : acc.expectedLen = 0) :
    absorbAll pc acc maxBytes (pieces maxChunkPlain (toLE32 p.length ++ p)) =
      ([], .error (.payloadTooLarge maxBytes)) := by
  obtain ⟨q, cs, hcs, -, -⟩ := pieces_encoded p
  rw [hcs]
  exact absorbAll_too_large hp hm hi ⟨q, rfl⟩

/-- The payload of every frame is shorter than `n` bytes. -/
def PayloadsBelow (pc : Postcard) (n : ℕ) (fs : List Frame) : Prop :=
  ∀ f ∈ fs, ∃ p, pc.toStdvec f = .ok p ∧ p.length < n

theorem plainChunks_cons (hf : pc.toStdvec f = .ok p) (h : plainChunks pc fs = .ok cs) :
    plainChunks pc (f :: fs) = .ok (pieces maxChunkPlain (toLE32 p.length ++ p) ++ cs) := by
  simp [plainChunks, encodeFrame_of_payload hf, h, bind, Except.bind, pure, Except.pure]

theorem plainChunks_cons_ok (h : plainChunks pc (f :: fs) = .ok cs) :
    ∃ p ds, pc.toStdvec f = .ok p ∧ plainChunks pc fs = .ok ds ∧
      cs = pieces maxChunkPlain (toLE32 p.length ++ p) ++ ds := by
  rw [plainChunks] at h
  rcases he : encodeFrame pc f with e | encoded
  · simp [he, bind, Except.bind] at h
  · rcases hr : plainChunks pc fs with e | ds
    · simp [he, hr, bind, Except.bind] at h
    · obtain ⟨p, hp, rfl⟩ := encodeFrame_eq_ok he
      simp only [he, hr, bind, Except.bind, pure, Except.pure, Except.ok.injEq] at h
      exact ⟨p, ds, hp, rfl, h.symm⟩

/-- Everything the receiver makes of the chunks of `fs` is a prefix of `fs`. -/
theorem absorbAll_plainChunks_le (hpc : pc.Lawful) (hb : PayloadsBelow pc (2 ^ 32) fs)
    (h : plainChunks pc fs = .ok cs) (hi : acc.expectedLen = 0) :
    (absorbAll pc acc maxBytes cs).1 <+: fs := by
  induction fs generalizing acc cs with
  | nil => cases h; exact List.prefix_refl _
  | cons f fs ih =>
    obtain ⟨p, ds, hp, hds, rfl⟩ := plainChunks_cons_ok h
    have hlt : p.length < 2 ^ 32 := by
      obtain ⟨p', hp', hlt⟩ := hb f List.mem_cons_self
      rw [hp] at hp'
      cases hp'
      exact hlt
    rcases Nat.lt_or_ge maxBytes p.length with hm | hm
    · rw [absorbAll_append_error (absorbAll_pieces_too_large hlt hm hi)]
      exact List.nil_prefix
    · rw [absorbAll_append (assembles_pieces (hpc.decodeFrame_payload hp) hlt hm hi).absorbAll]
      simpa using ih (fun g hg => hb g (List.mem_cons_of_mem _ hg)) hds rfl

/-- Frames within both limits come back complete and in order. -/
theorem absorbAll_plainChunks (hpc : pc.Lawful)
    (hb : ∀ f ∈ fs, ∃ p, pc.toStdvec f = .ok p ∧ p.length < 2 ^ 32 ∧ p.length ≤ maxBytes)
    (h : plainChunks pc fs = .ok cs) : absorbAll pc .new maxBytes cs = (fs, .ok .new) := by
  induction fs generalizing cs with
  | nil => cases h; rfl
  | cons f fs ih =>
    obtain ⟨p, ds, hp, hds, rfl⟩ := plainChunks_cons_ok h
    obtain ⟨p', hp', hlt, hm⟩ := hb f List.mem_cons_self
    rw [hp] at hp'
    cases hp'
    rw [absorbAll_append (assembles_pieces (hpc.decodeFrame_payload hp) hlt hm rfl).absorbAll,
      ih (fun g hg => hb g (List.mem_cons_of_mem _ hg)) hds]
    rfl

end NotifiTransport

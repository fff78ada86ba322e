import NotifiTransport.Frame.Receiver
import NotifiTransport.Lib.Merge
import NotifiTransport.Scheduler.Wfq

/-! # Sealed frames

What the two message loops put on a connection and take from it, apart from when they do it. A
frame is sealed when its chunks have been encrypted; it keeps each packet with its plaintext. A
packet is opened when it has been decrypted. A reader that has opened some of the packets of
sealed frames, in their order, has received the first of these frames.
-/

namespace NotifiTransport

/-- A Ping or a Pong. -/
def Frame.isKeepalive (f : Frame) : Bool := f.kind == .ping || f.kind == .pong

/-- The messages and events. -/
def dataFrames (fs : List Frame) : List Frame := fs.filter (! ·.isKeepalive)

@[simp] theorem dataFrames_append (fs fs' : List Frame) :
    dataFrames (fs ++ fs') = dataFrames fs ++ dataFrames fs' :=
  List.filter_append ..

/-- An encrypted frame: the queue of the scheduler it came from, `none` for a frame that no caller
has queued, and its packets with their plaintexts. -/
structure Sealed (pc : Postcard) where
  frame : Frame
  queue : Option (Fin 4)
  packets : List (Bytes × Bytes)
  encoded : (encodeFrame pc frame).map (pieces maxChunkPlain) = .ok (packets.map Prod.snd)

variable {pc : Postcard} {snow : Snow}

/-- The chunks that `encrypt_chunked` has made of an encoded frame. -/
theorem Sealed.zip_encoded {f : Frame} {encoded : Bytes} {noise noise' : NoiseSession snow}
    {packets : List Bytes} (he : encodeFrame pc f = .ok encoded)
    (hs : noise.encryptChunked encoded = (noise', .ok packets)) :
    (encodeFrame pc f).map (pieces maxChunkPlain) =
      .ok ((packets.zip (pieces maxChunkPlain encoded)).map Prod.snd) := by
  have hl : (pieces maxChunkPlain encoded).length ≤ packets.length :=
    (NoiseSession.length_encryptPieces hs).ge
  rw [he, List.map_snd_zip hl]
  rfl

variable (pc)

/-- Encode and encrypt a frame. -/
def sealFrame (noise : NoiseSession snow) (queue : Option (Fin 4)) (f : Frame) :
    List (Sealed pc) :=
  match he : encodeFrame pc f with
  | .error _ => []
  | .ok encoded =>
    match hs : noise.encryptChunked encoded with
    | (_, .error _) => []
    | (_, .ok packets) =>
      [⟨f, queue, packets.zip (pieces maxChunkPlain encoded), Sealed.zip_encoded he hs⟩]

/-- The head of the loop over the scheduler. -/
def sealNext (noise : NoiseSession snow) (scheduler : WfqScheduler Frame) : List (Sealed pc) :=
  match scheduler.pop.1 with
  | none => []
  | some f => sealFrame pc noise scheduler.served.head? f

/-- Decrypt a packet. -/
def openPacket (noise : NoiseSession snow) (data : Bytes) : List (Bytes × Bytes) :=
  match noise.readMessage data data.length with
  | (_, .error _) => []
  | (_, .ok plain) => [(data, plain)]

variable {pc} {noise noise' : NoiseSession snow} {acc acc' : FrameAccumulator} {data : Bytes}
  {maxBytes : ℕ} {ws : List (Sealed pc)} {opened : List (Bytes × Bytes)} {fs : List Frame}
  {f : Frame} {encoded : Bytes} {packets : List Bytes}

theorem sealFrame_of_ok (queue : Option (Fin 4)) (he : encodeFrame pc f = .ok encoded)
    (hs : noise.encryptChunked encoded = (noise', .ok packets)) :
    (sealFrame pc noise queue f).map (fun w => (w.frame, w.queue)) = [(f, queue)] := by
  unfold sealFrame
  split
  · next h => rw [he] at h; cases h
  · next h =>
    rw [he] at h
    cases h
    split
    · next h' => rw [hs] at h'; cases h'
    · next h' => rw [hs] at h'; cases h'; rfl

theorem sealFrame_of_encode {e : TransportError} (noise : NoiseSession snow)
    (queue : Option (Fin 4)) (he : encodeFrame pc f = .error e) :
    sealFrame pc noise queue f = [] := by
  unfold sealFrame
  split
  · rfl
  · next h => rw [he] at h; cases h

theorem sealFrame_of_encrypt {e : CryptoError} (queue : Option (Fin 4))
    (he : encodeFrame pc f = .ok encoded)
    (hs : noise.encryptChunked encoded = (noise', .error e)) :
    sealFrame pc noise queue f = [] := by
  unfold sealFrame
  split
  · rfl
  · next h =>
    rw [he] at h
    cases h
    split
    · rfl
    · next h' => rw [hs] at h'; cases h'

/-- The packets of sealed frames as they go over the wire. -/
def wirePackets (ws : List (Sealed pc)) : List Bytes := (ws.flatMap (·.packets)).map Prod.fst

@[simp] theorem wirePackets_append (ws ws' : List (Sealed pc)) :
    wirePackets (ws ++ ws') = wirePackets ws ++ wirePackets ws' := by
  simp [wirePackets]

theorem wirePackets_sealFrame (queue : Option (Fin 4)) (he : encodeFrame pc f = .ok encoded)
    (hs : noise.encryptChunked encoded = (noise', .ok packets)) :
    wirePackets (sealFrame pc noise queue f) = packets := by
  unfold sealFrame
  split
  · next h => rw [he] at h; cases h
  · next h =>
    rw [he] at h
    cases h
    split
    · next h' => rw [hs] at h'; cases h'
    · next h' =>
      rw [hs] at h'
      cases h'
      rw [wirePackets, List.flatMap_singleton, List.map_fst_zip]
      exact (NoiseSession.length_encryptPieces hs).le

/-- The queue and the frame, if it came from a queue. -/
def Sealed.queued? (w : Sealed pc) : Option (Fin 4 × Frame) := w.queue.map fun k => (k, w.frame)

/-- The frames that came from queues, with their queues. -/
def fromQueues (ws : List (Sealed pc)) : List (Fin 4 × Frame) := ws.filterMap Sealed.queued?

@[simp] theorem fromQueues_append (ws ws' : List (Sealed pc)) :
    fromQueues (ws ++ ws') = fromQueues ws ++ fromQueues ws' :=
  List.filterMap_append

/-- The frames that came from queue `k`. -/
def queuedIn (k : Fin 4) (ws : List (Sealed pc)) : List Frame :=
  ws.filterMap fun w => if w.queue = some k then some w.frame else none

@[simp] theorem queuedIn_nil (k : Fin 4) : queuedIn k ([] : List (Sealed pc)) = [] := rfl

@[simp] theorem queuedIn_append (k : Fin 4) (ws ws' : List (Sealed pc)) :
    queuedIn k (ws ++ ws') = queuedIn k ws ++ queuedIn k ws' :=
  List.filterMap_append

theorem sealFrame_cases (noise : NoiseSession snow) (queue : Option (Fin 4)) (f : Frame) :
    sealFrame pc noise queue f = [] ∨
      ∃ w, sealFrame pc noise queue f = [w] ∧ w.frame = f ∧ w.queue = queue := by
  unfold sealFrame
  split
  · exact Or.inl rfl
  · split
    · exact Or.inl rfl
    · exact Or.inr ⟨_, rfl, rfl, rfl⟩

theorem fromQueues_sealFrame_none (noise : NoiseSession snow) (f : Frame) :
    fromQueues (sealFrame pc noise none f) = [] := by
  rcases sealFrame_cases noise none f with h | ⟨w, h, -, hw⟩ <;> rw [h]
  · rfl
  · simp [fromQueues, Sealed.queued?, hw]

theorem queuedIn_sealFrame_none (noise : NoiseSession snow) (f : Frame) (k : Fin 4) :
    queuedIn k (sealFrame pc noise none f) = [] := by
  rcases sealFrame_cases noise none f with h | ⟨w, h, -, hw⟩ <;> rw [h]
  · rfl
  · simp [queuedIn, hw]

theorem substream_fromQueues (k : Fin 4) (ws : List (Sealed pc)) :
    substream k (fromQueues ws) = queuedIn k ws := by
  rw [substream, fromQueues, List.filterMap_filterMap]
  apply List.filterMap_congr
  intro w _
  cases hw : w.queue <;> simp [Sealed.queued?, hw]

theorem sealNext_of_pop {s : WfqScheduler Frame} {i : Fin 4} {rest : List Frame}
    {c : Fin 4 → ℕ} (noise : NoiseSession snow) (hq : s.queues i = f :: rest)
    (hp : s.pop = (some f, ⟨Function.update s.queues i rest, c⟩)) :
    sealNext pc noise s = sealFrame pc noise (some i) f := by
  rw [sealNext, hp, WfqScheduler.served_of_pop hq hp]
  rfl

theorem queue_of_mem_sealNext {noise : NoiseSession snow} {s : WfqScheduler Frame} {w : Sealed pc}
    (hw : w ∈ sealNext pc noise s) : w.queue ≠ none := by
  rcases s.pop_cases with ⟨-, hp⟩ | ⟨i, f, rest, c, hq, hp⟩
  · rw [sealNext, hp] at hw
    cases hw
  · rw [sealNext_of_pop noise hq hp] at hw
    rcases sealFrame_cases noise (some i) f with h | ⟨v, h, -, hv⟩ <;> rw [h] at hw
    · cases hw
    · rw [List.mem_singleton.mp hw, hv]
      exact Option.some_ne_none i

/-- What is sealed of the scheduler is the head of a queue. -/
theorem sealNext_le (noise : NoiseSession snow) (s : WfqScheduler Frame) (k : Fin 4) :
    queuedIn k (sealNext pc noise s) <+: s.queues k := by
  rcases s.pop_cases with ⟨-, hp⟩ | ⟨i, f, rest, c, hq, hp⟩
  · rw [sealNext, hp]
    exact List.nil_prefix
  · rw [sealNext_of_pop noise hq hp]
    rcases sealFrame_cases noise (some i) f with h | ⟨w, h, hf, hw⟩ <;> rw [h]
    · exact List.nil_prefix
    · by_cases hk : i = k
      · subst hk
        simp [queuedIn, hw, hf, hq]
      · simp [queuedIn, hw, hk]

/-- A frame that is sealed leaves its queue. -/
theorem queues_of_pop {s s' : WfqScheduler Frame} (hp : s.pop = (some f, s'))
    (he : encodeFrame pc f = .ok encoded)
    (hs : noise.encryptChunked encoded = (noise', .ok packets)) (k : Fin 4) :
    s.queues k = queuedIn k (sealNext pc noise s) ++ s'.queues k := by
  rcases s.pop_cases with ⟨-, hp'⟩ | ⟨i, g, rest, c, hq, hp'⟩ <;> rw [hp'] at hp <;> cases hp
  have hw := sealFrame_of_ok (some i) he hs
  rw [sealNext_of_pop noise hq hp']
  rcases sealFrame_cases noise (some i) f with h | ⟨w, h, hf, hi⟩ <;> rw [h] at hw ⊢
  · cases hw
  · by_cases hk : i = k
    · subst hk
      simp [queuedIn, hi, hf, hq]
    · simp [queuedIn, hi, hk, Function.update_of_ne (Ne.symm hk)]

/-- Nothing is sealed of an empty scheduler. -/
theorem queues_of_pop_none {s s' : WfqScheduler Frame} (hp : s.pop = (none, s'))
    (noise : NoiseSession snow) (k : Fin 4) :
    s.queues k = queuedIn k (sealNext pc noise s) ++ s'.queues k := by
  obtain ⟨hs, hs'⟩ := WfqScheduler.pop_none hp
  rw [sealNext, hp, WfqScheduler.isEmpty_iff.mp hs k, WfqScheduler.isEmpty_iff.mp hs' k]
  rfl

/-- The frames that no caller has queued are Pings. -/
def PingsOnly (ws : List (Sealed pc)) : Prop := ∀ w ∈ ws, w.queue = none → w.frame.isKeepalive

theorem pingsOnly_append {ws ws' : List (Sealed pc)} :
    PingsOnly (ws ++ ws') ↔ PingsOnly ws ∧ PingsOnly ws' := by
  simp only [PingsOnly, List.forall_mem_append]

theorem pingsOnly_sealNext (noise : NoiseSession snow) (s : WfqScheduler Frame) :
    PingsOnly (sealNext pc noise s) :=
  fun _ hw hn => absurd hn (queue_of_mem_sealNext hw)

theorem pingsOnly_sealFrame (noise : NoiseSession snow) :
    PingsOnly (sealFrame pc noise none ⟨0, .ping, []⟩) := by
  intro v hv _
  rcases sealFrame_cases noise none ⟨0, .ping, []⟩ with h | ⟨w, h, hf, -⟩ <;> rw [h] at hv
  · cases hv
  · rw [List.mem_singleton.mp hv, hf]
    rfl

theorem dataFrames_sealed {ws : List (Sealed pc)} (h : PingsOnly ws) :
    dataFrames (ws.map (·.frame)) = dataFrames ((fromQueues ws).map Prod.snd) := by
  induction ws with
  | nil => rfl
  | cons w ws ih =>
    have hrest := ih fun v hv => h v (List.mem_cons_of_mem w hv)
    have hone : dataFrames [w.frame] = dataFrames ((fromQueues [w]).map Prod.snd) := by
      cases hw : w.queue with
      | none => simp [dataFrames, fromQueues, Sealed.queued?, hw, h w List.mem_cons_self hw]
      | some k => simp [fromQueues, Sealed.queued?, hw]
    calc dataFrames ((w :: ws).map (·.frame))
      _ = dataFrames [w.frame] ++ dataFrames (ws.map (·.frame)) := dataFrames_append [w.frame] _
      _ = dataFrames ((fromQueues [w]).map Prod.snd ++ (fromQueues ws).map Prod.snd) := by
        rw [hone, hrest, dataFrames_append]
      _ = dataFrames ((fromQueues (w :: ws)).map Prod.snd) := by
        rw [← List.map_append, ← fromQueues_append, List.singleton_append]

/-- The plaintexts of the packets are the chunks of the frames. -/
theorem plainChunks_sealed (ws : List (Sealed pc)) :
    plainChunks pc (ws.map (·.frame)) = .ok ((ws.flatMap (·.packets)).map Prod.snd) := by
  induction ws with
  | nil => rfl
  | cons w ws ih =>
    rw [List.map_cons, plainChunks, ih]
    have hw := w.encoded
    rcases he : encodeFrame pc w.frame with e | encoded <;> rw [he] at hw
    · cases hw
    · have hp : pieces maxChunkPlain encoded = w.packets.map Prod.snd := Except.ok.inj hw
      simp [hp, bind, Except.bind, pure, Except.pure]

/-- The frames of a reader that has opened these packets and holds this accumulator, or has
stopped. -/
def Heard (pc : Postcard) (maxBytes : ℕ) (opened : List (Bytes × Bytes)) (fs : List Frame) :
    Option FrameAccumulator → Prop
  | none => fs <+: (absorbAll pc .new maxBytes (opened.map Prod.snd)).1
  | some acc => absorbAll pc .new maxBytes (opened.map Prod.snd) = (fs, .ok acc)

theorem heard_new : Heard pc maxBytes [] [] (some .new) := rfl

theorem Heard.stop {acc : Option FrameAccumulator} (h : Heard pc maxBytes opened fs acc) :
    Heard pc maxBytes opened fs none := by
  cases acc with
  | none => exact h
  | some acc =>
    rw [Heard, h]

/-- A reader that stops makes nothing more of its packets. -/
theorem Heard.more {acc : Option FrameAccumulator} (h : Heard pc maxBytes opened fs acc)
    (more : List (Bytes × Bytes)) : Heard pc maxBytes (opened ++ more) fs none := by
  rw [Heard, List.map_append]
  exact List.IsPrefix.trans h.stop absorbAll_append_le

theorem Heard.receive {g : Option Frame} (h : Heard pc maxBytes opened fs (some acc))
    (hr : receive pc noise acc data maxBytes = .ok (noise', acc', g)) :
    Heard pc maxBytes (opened ++ openPacket noise data) (fs ++ g.toList) (some acc') := by
  obtain ⟨p, hp, ha⟩ := receive_ok hr
  have ho : openPacket noise data = [(data, p)] := by rw [openPacket, hp]
  rw [Heard, ho, List.map_append]
  exact absorbAll_concat h ha

namespace FrameAccumulator

theorem feed_some {chunk frameBytes : Bytes}
    (h : acc.feed chunk maxBytes = (acc', .ok (some frameBytes))) : acc' = .new := by
  have hcomplete : ∀ a : FrameAccumulator, a.complete = (acc', .ok (some frameBytes)) →
      acc' = .new := by
    intro a ha
    rcases complete_ok ha with ⟨⟨⟩, -⟩ | ⟨-, hnew, -⟩
    exact hnew
  unfold feed at h
  split at h
  · split at h
    · cases h
    · dsimp only at h
      split at h
      · cases h
      · exact hcomplete _ h
  · dsimp only at h
    split at h
    · cases h
    · exact hcomplete _ h

end FrameAccumulator

/-- A frame is complete with the last byte of a packet. -/
theorem receive_complete (hr : receive pc noise acc data maxBytes = .ok (noise', acc', some f)) :
    acc' = .new := by
  obtain ⟨p, -, ha⟩ := receive_ok hr
  unfold absorb at ha
  split at ha
  · cases ha
  · cases ha
  · next acc₁ frameBytes hf =>
    rcases hd : decodeFrame pc frameBytes with e | g <;> rw [hd] at ha <;> cases ha
    exact FrameAccumulator.feed_some hf

theorem PayloadsBelow.mono {n k : ℕ} (h : PayloadsBelow pc n fs) (hk : n ≤ k) :
    PayloadsBelow pc k fs := by
  intro f hf
  obtain ⟨p, hp, hlt⟩ := h f hf
  exact ⟨p, hp, hlt.trans_le hk⟩

theorem payloadsBelow_iff {n : ℕ} : PayloadsBelow pc n fs ↔
    (fs.all fun f => (pc.toStdvec f).toOption.any (·.length < n)) = true := by
  rw [PayloadsBelow, List.all_eq_true]
  refine forall₂_congr fun f _ => ?_
  rcases pc.toStdvec f with e | p <;> simp [Except.toOption]

instance (n : ℕ) (fs : List Frame) : Decidable (PayloadsBelow pc n fs) :=
  decidable_of_iff' _ payloadsBelow_iff

/-- What has been received is a prefix of what was sealed. -/
theorem Heard.le {acc : Option FrameAccumulator} (hpc : pc.Lawful)
    (hb : PayloadsBelow pc (2 ^ 32) (ws.map (·.frame)))
    (ho : opened <+: ws.flatMap (·.packets)) (h : Heard pc maxBytes opened fs acc) :
    fs <+: ws.map (·.frame) := by
  obtain ⟨rest, hrest⟩ := ho
  have hall : (absorbAll pc .new maxBytes ((ws.flatMap (·.packets)).map Prod.snd)).1 <+:
      ws.map (·.frame) := absorbAll_plainChunks_le hpc hb (plainChunks_sealed ws) rfl
  rw [← hrest, List.map_append] at hall
  exact (h.stop.trans absorbAll_append_le).trans hall

/-- A reader that goes on after all chunks of `fs` has made `fs` of them. -/
theorem absorbAll_plainChunks_eq {cs : List Bytes} (hpc : pc.Lawful)
    (hb : PayloadsBelow pc (2 ^ 32) fs) (h : plainChunks pc fs = .ok cs) (hi : acc.expectedLen = 0)
    (hr : (absorbAll pc acc maxBytes cs).2 = .ok acc') : (absorbAll pc acc maxBytes cs).1 = fs := by
  induction fs generalizing acc cs with
  | nil => cases h; rfl
  | cons f fs ih =>
    obtain ⟨p, ds, hp, hds, rfl⟩ := plainChunks_cons_ok h
    have hlt : p.length < 2 ^ 32 := by
      obtain ⟨p', hp', hlt⟩ := hb f List.mem_cons_self
      rw [hp] at hp'
      cases hp'
      exact hlt
    rcases Nat.lt_or_ge maxBytes p.length with hm | hm
    · rw [absorbAll_append_error (absorbAll_pieces_too_large hlt hm hi)] at hr
      cases hr
    · rw [absorbAll_append (assembles_pieces (hpc.decodeFrame_payload hp) hlt hm hi).absorbAll]
        at hr ⊢
      exact congrArg _ (ih (fun g hg => hb g (List.mem_cons_of_mem _ hg)) hds rfl hr)

/-- A reader that goes on and has opened all packets has received all frames. -/
theorem Heard.all (hpc : pc.Lawful) (hb : PayloadsBelow pc (2 ^ 32) (ws.map (·.frame)))
    (ho : opened = ws.flatMap (·.packets)) (h : Heard pc maxBytes opened fs (some acc)) :
    fs = ws.map (·.frame) := by
  subst ho
  have hnew : (FrameAccumulator.new).expectedLen = 0 := rfl
  have hall := absorbAll_plainChunks_eq hpc hb (plainChunks_sealed ws) hnew (congrArg Prod.snd h)
  exact (congrArg Prod.fst h).symm.trans hall

/-- Within both limits the next packet is not rejected. -/
theorem Heard.next {p : Bytes} (hpc : pc.Lawful)
    (hb : PayloadsBelow pc (2 ^ 32) (ws.map (·.frame)))
    (hm : PayloadsBelow pc (maxBytes + 1) (ws.map (·.frame)))
    (ho : opened ++ [(data, p)] <+: ws.flatMap (·.packets))
    (h : Heard pc maxBytes opened fs (some acc)) :
    ∃ acc' g, absorb pc acc p maxBytes = .ok (acc', g) := by
  have hall : absorbAll pc .new maxBytes ((ws.flatMap (·.packets)).map Prod.snd) =
      (ws.map (·.frame), .ok .new) := by
    refine absorbAll_plainChunks hpc (fun f hf => ?_) (plainChunks_sealed ws)
    obtain ⟨q, hq, hlt⟩ := hb f hf
    obtain ⟨q', hq', hle⟩ := hm f hf
    cases hq.symm.trans hq'
    exact ⟨q, hq, hlt, Nat.le_of_lt_succ hle⟩
  obtain ⟨rest, hrest⟩ := ho
  rcases ha : absorb pc acc p maxBytes with e | ⟨acc', g⟩
  · have herr : absorbAll pc .new maxBytes ((opened ++ [(data, p)]).map Prod.snd) =
        (fs ++ [], .error e) := by
      rw [List.map_append, absorbAll_append (show absorbAll _ _ _ _ = (fs, .ok acc) from h)]
      simp [absorbAll, ha]
    rw [← hrest, List.map_append, absorbAll_append_error herr] at hall
    exact absurd (congrArg Prod.snd hall) (by simp)
  · exact ⟨acc', g, rfl⟩

end NotifiTransport

import Mathlib.Data.List.Induction
import NotifiTransport.Frame.Accumulator

/-! # Reassembly of frames from chunks

A frame that is cut after its length prefix comes back with its last chunk, and leaves the
accumulator idle for the next one. Whatever a peer sends, an accumulator that has not refused a
chunk buffers less than the length it was told, which is at most the limit, and what it hands out is
what followed the prefix.
-/

namespace NotifiTransport

namespace FrameAccumulator

/-- An accumulator that waits for a length prefix. -/
def Idle (acc : FrameAccumulator) : Prop := acc.expectedLen = 0

/-- Feed chunks one after another. Every chunk gives a result, and a refused chunk leaves the fields
as `feed` leaves them. -/
def feedAll (acc : FrameAccumulator) (maxBytes : ℕ) :
    List Bytes → FrameAccumulator × List (Except TransportError (Option Bytes))
  | [] => (acc, [])
  | chunk :: chunks =>
    let r := acc.feed chunk maxBytes
    let rest := feedAll r.1 maxBytes chunks
    (rest.1, r.2 :: rest.2)

/-- A frame with payload `p`, cut into chunks of which the first holds the length prefix. -/
structure FrameCut (maxBytes : ℕ) (p : Bytes) (chunks : List Bytes) : Prop where
  pos : 1 ≤ p.length
  le : p.length ≤ maxBytes
  lt : p.length < 2 ^ 32
  flatten : chunks.flatten = toLE32 p.length ++ p
  ne_nil : ∀ c ∈ chunks, c ≠ []
  four_le : ∀ c, chunks.head? = some c → 4 ≤ c.length

variable {acc : FrameAccumulator} {maxBytes : ℕ} {chunk p q : Bytes} {chunks cs ds : List Bytes}

theorem feedAll_append : feedAll acc maxBytes (cs ++ ds) =
    ((feedAll (feedAll acc maxBytes cs).1 maxBytes ds).1,
      (feedAll acc maxBytes cs).2 ++ (feedAll (feedAll acc maxBytes cs).1 maxBytes ds).2) := by
  induction cs generalizing acc with
  | nil => rfl
  | cons c cs ih => simp [feedAll, ih]

/-- Every chunk gives one result. -/
theorem length_feedAll (acc : FrameAccumulator) (maxBytes : ℕ) (cs : List Bytes) :
    (feedAll acc maxBytes cs).2.length = cs.length := by
  induction cs generalizing acc with
  | nil => rfl
  | cons c cs ih => rw [feedAll, List.length_cons, ih, List.length_cons]

theorem feedAll_concat : feedAll acc maxBytes (cs ++ [chunk]) =
    (((feedAll acc maxBytes cs).1.feed chunk maxBytes).1,
      (feedAll acc maxBytes cs).2 ++ [((feedAll acc maxBytes cs).1.feed chunk maxBytes).2]) := by
  rw [feedAll_append]
  rfl

/-- The rest of a frame of which `q` is already in the buffer. -/
theorem feedAll_busy (hm : p.length ≤ maxBytes) (hq : q ++ cs.flatten = p)
    (hlt : q.length < p.length) (hne : ∀ c ∈ cs, c ≠ []) :
    feedAll ⟨p.length, q⟩ maxBytes cs =
      (new, List.replicate (cs.length - 1) (.ok none) ++ [.ok (some p)]) := by
  induction cs generalizing q with
  | nil =>
    simp only [List.flatten_nil, List.append_nil] at hq
    subst hq
    omega
  | cons c cs ih =>
    have hlen : q.length + c.length + cs.flatten.length = p.length := by
      rw [← hq]
      simp [Nat.add_assoc]
    have hfeed : feed ⟨p.length, q⟩ c maxBytes = complete ⟨p.length, q ++ c⟩ := by
      apply feed_busy
      · omega
      · rw [List.length_append]
        omega
    cases cs with
    | nil =>
      have hp : q ++ c = p := by simpa using hq
      rw [hp, complete_exact] at hfeed
      simp [feedAll, hfeed]
    | cons d ds =>
      have hd : 0 < d.length := List.length_pos_iff.mpr (hne d (by simp))
      have hlt' : (q ++ c).length < p.length := by
        simp only [List.flatten_cons, List.length_append] at hlen ⊢
        omega
      rw [FrameAccumulator.complete_partial hlt'] at hfeed
      have hrest := ih (q := q ++ c) (by simpa using hq) hlt'
        fun x hx => hne x (List.mem_cons_of_mem _ hx)
      rw [feedAll, hfeed, hrest]
      simp [List.replicate_succ]

/-- A chunk with the prefix is the prefix and what follows it. -/
theorem eq_toLE32_append {c r : Bytes} {n : ℕ} (hc : c ++ r = toLE32 n ++ p) (h4 : 4 ≤ c.length) :
    ∃ q, c = toLE32 n ++ q := by
  refine ⟨c.drop 4, ?_⟩
  have ht := congrArg (List.take 4) hc
  rw [List.take_append_of_le_length h4, take_toLE32_append] at ht
  rw [← ht, List.take_append_drop]

/-- One frame, cut anywhere after its length prefix: only the last chunk returns it, and leaves
nothing behind. -/
theorem feedAll_cut {c : Bytes} (hi : acc.Idle) (hp : p.length < 2 ^ 32) (hm : p.length ≤ maxBytes)
    (hc : c ++ cs.flatten = toLE32 p.length ++ p) (h4 : 4 ≤ c.length) (hne : ∀ d ∈ cs, d ≠ []) :
    feedAll acc maxBytes (c :: cs) =
      (new, List.replicate cs.length (.ok none) ++ [.ok (some p)]) := by
  obtain ⟨q, rfl⟩ := eq_toLE32_append hc h4
  have hq : q ++ cs.flatten = p := by simpa using hc
  have hfeed : acc.feed (toLE32 p.length ++ q) maxBytes = complete ⟨p.length, q⟩ :=
    feed_idle hi hp hm
  cases cs with
  | nil =>
    obtain rfl : q = p := by simpa using hq
    rw [complete_exact] at hfeed
    simp [feedAll, hfeed]
  | cons d ds =>
    have hd : 0 < d.length := List.length_pos_iff.mpr (hne d (by simp))
    have hlt : q.length < p.length := by
      rw [← hq]
      simp
      omega
    rw [FrameAccumulator.complete_partial hlt] at hfeed
    rw [feedAll, hfeed, feedAll_busy hm hq hlt hne]
    simp [List.replicate_succ]

theorem feedAll_frame (hi : acc.Idle) (h : FrameCut maxBytes p chunks) :
    feedAll acc maxBytes chunks =
      (new, List.replicate (chunks.length - 1) (.ok none) ++ [.ok (some p)]) := by
  cases chunks with
  | nil =>
    have hlen := congrArg List.length h.flatten
    simp only [List.flatten_nil, List.length_nil, List.length_append, length_toLE32] at hlen
    omega
  | cons c cs =>
    exact feedAll_cut hi h.lt h.le h.flatten (h.four_le c rfl)
      fun d hd => h.ne_nil d (List.mem_cons_of_mem _ hd)

/-- Frames one after another, each cut in its own way: every frame is returned by its last chunk and
by no other, and the accumulator is idle after each of them. -/
theorem feedAll_frames (hi : acc.Idle) (frames : List (Bytes × List Bytes))
    (h : ∀ f ∈ frames, FrameCut maxBytes f.1 f.2) :
    (feedAll acc maxBytes (frames.flatMap Prod.snd)).1.Idle ∧
      (feedAll acc maxBytes (frames.flatMap Prod.snd)).2 =
        frames.flatMap fun f => List.replicate (f.2.length - 1) (.ok none) ++ [.ok (some f.1)] := by
  induction frames generalizing acc with
  | nil => exact ⟨hi, rfl⟩
  | cons f fs ih =>
    have hf := feedAll_frame hi (h f (by simp))
    have hnew : new.Idle := rfl
    obtain ⟨hidle, hrest⟩ := ih hnew fun g hg => h g (List.mem_cons_of_mem _ hg)
    rw [List.flatMap_cons, feedAll_append, hf]
    constructor
    · exact hidle
    · rw [hrest, List.flatMap_cons]

/-- Two frames, the second in three chunks, the first of them only the prefix. -/
theorem feedAll_frames_two :
    (feedAll new 3 [toLE32 1 ++ [9], toLE32 3, [7, 8], [9]]).1.Idle ∧
      (feedAll new 3 [toLE32 1 ++ [9], toLE32 3, [7, 8], [9]]).2 =
        [.ok (some [9]), .ok none, .ok none, .ok (some [7, 8, 9])] := by
  have hidle : new.Idle := rfl
  apply feedAll_frames hidle [([9], [toLE32 1 ++ [9]]), ([7, 8, 9], [toLE32 3, [7, 8], [9]])]
  simp only [List.forall_mem_cons, List.not_mem_nil, false_imp_iff, implies_true, and_true]
  constructor
  · exact ⟨by decide, by decide, by decide, by decide, by decide, by decide⟩
  · exact ⟨by decide, by decide, by decide, by decide, by decide, by decide⟩

section Bounds

variable {r : Option Bytes} {b : Bytes} {acc' : FrameAccumulator}

/-- What an accumulator that has not refused a chunk may hold: nothing, or less than it was told to
expect, within the limit. -/
def Bounded (maxBytes : ℕ) (acc : FrameAccumulator) : Prop :=
  acc = new ∨ acc.buffer.length < acc.expectedLen ∧ acc.expectedLen ≤ maxBytes

/-- The bytes `got` since the accumulator was last idle begin with a length prefix, and `acc` has
their rest. -/
structure Collecting (acc : FrameAccumulator) (got : Bytes) : Prop where
  four_le : 4 ≤ got.length
  expectedLen_eq : acc.expectedLen = ofLE (got.take 4)
  buffer_eq : acc.buffer = got.drop 4

/-- A frame that was declared by the prefix of the bytes `got` and is what follows the prefix. -/
structure FrameOf (maxBytes : ℕ) (got b : Bytes) : Prop where
  four_le : 4 ≤ got.length
  length_eq : b.length = ofLE (got.take 4)
  le : b.length ≤ maxBytes
  prefix_drop : b <+: got.drop 4

/-- What an accepted chunk leads to when the bytes since the accumulator was idle are `got`. -/
def Outcome (maxBytes : ℕ) (got : Bytes) (acc : FrameAccumulator) : Option Bytes → Prop
  | none => Collecting acc got ∧ acc.buffer.length < acc.expectedLen ∧ acc.expectedLen ≤ maxBytes
  | some b => acc = new ∧ FrameOf maxBytes got b

theorem complete_ok (h : complete acc = (acc', .ok r)) :
    (r = none ∧ acc' = acc ∧ acc.buffer.length < acc.expectedLen) ∨
      (r = some (acc.buffer.take acc.expectedLen) ∧ acc' = new ∧
        acc.expectedLen ≤ acc.buffer.length) := by
  unfold complete at h
  split at h
  · next hle =>
    cases h
    exact Or.inr ⟨rfl, rfl, hle⟩
  · next hlt =>
    cases h
    exact Or.inl ⟨rfl, rfl, not_le.mp hlt⟩

/-- The end of an accepted chunk, once the accumulator has the rest of the bytes. -/
theorem Collecting.complete_ok {got : Bytes} (hc : Collecting acc got)
    (hm : acc.expectedLen ≤ maxBytes) (h : complete acc = (acc', .ok r)) :
    Outcome maxBytes got acc' r := by
  rcases FrameAccumulator.complete_ok h with ⟨rfl, rfl, hlt⟩ | ⟨rfl, rfl, hle⟩
  · exact ⟨hc, hlt, hm⟩
  · have hlen : (acc.buffer.take acc.expectedLen).length = acc.expectedLen := by
      rw [List.length_take, Nat.min_eq_left hle]
    constructor
    · rfl
    · refine ⟨hc.four_le, hlen.trans hc.expectedLen_eq, hlen.le.trans hm, ?_⟩
      rw [← hc.buffer_eq]
      exact List.take_prefix _ _

/-- An accepted chunk in an idle accumulator begins with a length prefix within the limit. -/
theorem feed_new_ok (h : feed new chunk maxBytes = (acc', .ok r)) :
    Outcome maxBytes chunk acc' r := by
  simp only [feed, new, if_true] at h
  split at h
  · cases h
  · next h4 =>
    split at h
    · cases h
    · next hm => exact Collecting.complete_ok ⟨not_lt.mp h4, rfl, rfl⟩ (not_lt.mp hm) h

/-- An accepted chunk in a busy accumulator adds its bytes. -/
theorem Collecting.feed_ok {got : Bytes} (hc : Collecting acc got)
    (hb : acc.buffer.length < acc.expectedLen) (hm : acc.expectedLen ≤ maxBytes)
    (h : acc.feed chunk maxBytes = (acc', .ok r)) : Outcome maxBytes (got ++ chunk) acc' r := by
  have hne : acc.expectedLen ≠ 0 := by omega
  have hnext : Collecting ⟨acc.expectedLen, acc.buffer ++ chunk⟩ (got ++ chunk) := by
    constructor
    · have h4 := hc.four_le
      rw [List.length_append]
      omega
    · rw [List.take_append_of_le_length hc.four_le]
      exact hc.expectedLen_eq
    · rw [List.drop_append_of_le_length hc.four_le, hc.buffer_eq]
  simp only [feed, if_neg hne] at h
  split at h
  · cases h
  · exact hnext.complete_ok hm h

/-- No chunk of a new accumulator was refused. -/
def Accepted (maxBytes : ℕ) (cs : List Bytes) : Prop :=
  ∀ r ∈ (feedAll new maxBytes cs).2, r.isOk = true

/-- `mid` are the chunks since the accumulator was last idle. -/
def SinceIdle (maxBytes : ℕ) (cs mid : List Bytes) : Prop :=
  ∃ before, cs = before ++ mid ∧ (feedAll new maxBytes before).1 = new ∧
    (feedAll new maxBytes mid).2 = List.replicate mid.length (.ok none)

/-- The accumulator as the chunks since it was last idle determine it. -/
def Holds (maxBytes : ℕ) (acc : FrameAccumulator) (mid : List Bytes) : Prop :=
  acc = new ∧ mid = [] ∨
    Collecting acc mid.flatten ∧ acc.buffer.length < acc.expectedLen ∧ acc.expectedLen ≤ maxBytes

theorem Accepted.left (h : Accepted maxBytes (cs ++ ds)) : Accepted maxBytes cs := by
  intro r hr
  apply h
  rw [feedAll_append]
  exact List.mem_append_left _ hr

theorem Accepted.last (h : Accepted maxBytes (cs ++ [chunk])) :
    ∃ acc' r, (feedAll new maxBytes cs).1.feed chunk maxBytes = (acc', .ok r) := by
  have hlast := h ((feedAll new maxBytes cs).1.feed chunk maxBytes).2 (by simp [feedAll_concat])
  rcases hfeed : (feedAll new maxBytes cs).1.feed chunk maxBytes with ⟨acc', e | r⟩
  · rw [hfeed] at hlast
    cases hlast
  · exact ⟨acc', r, rfl⟩

theorem SinceIdle.feedAll_eq {mid : List Bytes} (h : SinceIdle maxBytes cs mid) :
    (feedAll new maxBytes cs).1 = (feedAll new maxBytes mid).1 := by
  obtain ⟨before, rfl, hbefore, -⟩ := h
  rw [feedAll_append, hbefore]

theorem Holds.feed_ok {mid : List Bytes} (h : Holds maxBytes acc mid)
    (hfeed : acc.feed chunk maxBytes = (acc', .ok r)) :
    Outcome maxBytes (mid ++ [chunk]).flatten acc' r := by
  rcases h with ⟨rfl, rfl⟩ | ⟨hc, hb, hm⟩
  · simpa using feed_new_ok hfeed
  · simpa using hc.feed_ok hb hm hfeed

theorem Holds.bounded {mid : List Bytes} (h : Holds maxBytes acc mid) : acc.Bounded maxBytes :=
  h.imp And.left And.right

/-- A run without a refused chunk knows the chunks since the accumulator was last idle. -/
theorem Accepted.holds (h : Accepted maxBytes cs) :
    ∃ mid, SinceIdle maxBytes cs mid ∧ Holds maxBytes (feedAll new maxBytes cs).1 mid := by
  induction cs using List.reverseRecOn with
  | nil => exact ⟨[], ⟨[], rfl, rfl, rfl⟩, Or.inl ⟨rfl, rfl⟩⟩
  | append_singleton cs chunk ih =>
    obtain ⟨mid, hsince, hmid⟩ := ih h.left
    obtain ⟨acc', r, hfeed⟩ := h.last
    have hstep := hmid.feed_ok hfeed
    have hstate : (feedAll new maxBytes (cs ++ [chunk])).1 = acc' := by
      rw [feedAll_concat, hfeed]
    rw [hstate]
    cases r with
    | some b =>
      -- the frame is complete, and nothing is kept
      obtain ⟨rfl, -⟩ := hstep
      exact ⟨[], ⟨cs ++ [chunk], by simp, hstate, rfl⟩, Or.inl ⟨rfl, rfl⟩⟩
    | none =>
      have heq := hsince.feedAll_eq
      obtain ⟨before, rfl, hbefore, hnone⟩ := hsince
      refine ⟨mid ++ [chunk], ⟨before, by simp, hbefore, ?_⟩, Or.inr hstep⟩
      rw [feedAll_concat, ← heq, hfeed, hnone, List.length_append, List.length_singleton,
        List.replicate_succ']

/-- Whatever chunks arrive, as long as none is refused: after each of them the accumulator is as new
or holds less than it expects, within the limit, and a frame it returns is what followed the length
prefix with which it was last idle, as long as that prefix says and within the limit. -/
theorem feedAll_accepted (hok : Accepted maxBytes cs) :
    (∀ fed rest, cs = fed ++ rest → (feedAll new maxBytes fed).1.Bounded maxBytes) ∧
    ∀ fed chunk rest b, cs = fed ++ chunk :: rest →
      ((feedAll new maxBytes fed).1.feed chunk maxBytes).2 = .ok (some b) →
      ∃ mid, SinceIdle maxBytes fed mid ∧ FrameOf maxBytes (mid ++ [chunk]).flatten b := by
  constructor
  · rintro fed rest rfl
    obtain ⟨mid, -, hmid⟩ := hok.left.holds
    exact hmid.bounded
  · rintro fed chunk rest b rfl hb
    obtain ⟨mid, hsince, hmid⟩ := hok.left.holds
    have hfeed : (feedAll new maxBytes fed).1.feed chunk maxBytes =
        (((feedAll new maxBytes fed).1.feed chunk maxBytes).1, .ok (some b)) := by
      rw [← hb]
    exact ⟨mid, hsince, (hmid.feed_ok hfeed).2⟩

/-- A frame with a byte too many, then one of length zero. -/
theorem feedAll_accepted_overshoot :
    (∀ fed rest, [toLE32 2 ++ [1], [2, 3], toLE32 0 ++ [5]] = fed ++ rest →
      (feedAll new 4 fed).1.Bounded 4) ∧
    ∀ fed chunk rest b, [toLE32 2 ++ [1], [2, 3], toLE32 0 ++ [5]] = fed ++ chunk :: rest →
      ((feedAll new 4 fed).1.feed chunk 4).2 = .ok (some b) →
      ∃ mid, SinceIdle 4 fed mid ∧ FrameOf 4 (mid ++ [chunk]).flatten b := by
  apply feedAll_accepted
  unfold Accepted
  decide

end Bounds

end FrameAccumulator

end NotifiTransport

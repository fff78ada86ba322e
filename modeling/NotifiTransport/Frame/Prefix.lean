import NotifiTransport.Frame.Postcard
import NotifiTransport.Frame.Reassembly

/-! # The length prefix of large frames

`encode_frame` casts the length of the payload to `u32`. The payload is the data with the varints of
the id, of the kind and of the length of the data, so the prefix is right exactly if all of them
together take fewer than `2 ^ 32` bytes.
-/

namespace NotifiTransport

/-- Postcard serialises every frame in the varint format, and reads that format. -/
structure Postcard.InVarintFormat (pc : Postcard) : Prop where
  toStdvec : ∀ f : Frame, f.data.length < 2 ^ 64 → pc.toStdvec f = .ok (Postcard.frameBytes f)
  fromBytes : ∀ f : Frame, f.data.length < 2 ^ 64 → pc.fromBytes (Postcard.frameBytes f) = .ok f

/-- The prefix says how many bytes follow. -/
def PrefixExact (out : Bytes) : Prop := ofLE (out.take 4) = (out.drop 4).length

/-- A receiver whose limit admits the frame gets it from these bytes, wherever they are cut behind
the prefix. -/
def Received (pc : Postcard) (f : Frame) (out : Bytes) : Prop :=
  ∀ maxBytes, (out.drop 4).length ≤ maxBytes → ∀ acc : FrameAccumulator, acc.Idle →
    ∀ c cs, c ++ cs.flatten = out → 4 ≤ c.length → (∀ d ∈ cs, d ≠ []) →
      ∃ p, acc.feedAll maxBytes (c :: cs) =
          (.new, List.replicate cs.length (.ok none) ++ [.ok (some p)]) ∧
        decodeFrame pc p = .ok f

variable {pc : Postcard} {f : Frame} {p : Bytes}

theorem Postcard.wire_inVarintFormat : Postcard.wire.InVarintFormat where
  toStdvec _ hf := if_pos hf
  fromBytes f hf := by simp only [wire, takeFrame_frameBytes f hf]

/-- The kind takes one byte. -/
theorem Postcard.length_frameBytes (hf : f.data.length < 2 ^ 64) :
    (frameBytes f).length =
      Nat.log 128 f.id.toNat + Nat.log 128 f.data.length + f.data.length + 3 := by
  have hid : f.id.toNat < 2 ^ 32 := f.id.toNat_lt
  have hkind : f.kind.discriminant < 128 := by cases f.kind <;> decide
  have h₁ := length_varint 5 (n := f.id.toNat) (by omega) (by decide)
  have h₂ := length_varint 5 (n := f.kind.discriminant) (by omega) (by decide)
  have h₃ := length_varint 10 (n := f.data.length) (by omega) (by decide)
  rw [Nat.log_of_lt hkind] at h₂
  simp only [frameBytes, List.length_append]
  omega

theorem log_id_le (f : Frame) : Nat.log 128 f.id.toNat ≤ 4 := by
  have hid : f.id.toNat < 2 ^ 32 := f.id.toNat_lt
  have hlt : Nat.log 128 f.id.toNat < 5 := Nat.log_lt_of_lt_pow' (by decide) (by omega)
  omega

/-- Where the sum comes near `2 ^ 32`, the length of the data takes five bytes. -/
theorem Postcard.length_frameBytes_lt_iff (hf : f.data.length < 2 ^ 64) :
    (frameBytes f).length < 2 ^ 32 ↔ f.data.length + Nat.log 128 f.id.toNat + 7 < 2 ^ 32 := by
  have hid := log_id_le f
  rw [length_frameBytes hf]
  rcases Nat.lt_or_ge f.data.length (128 ^ 4) with hsmall | hlarge
  · have hlog : Nat.log 128 f.data.length < 4 := Nat.log_lt_of_lt_pow' (by decide) hsmall
    omega
  · rcases Nat.lt_or_ge f.data.length (128 ^ 5) with hlt | hge
    · have hlog : Nat.log 128 f.data.length = 4 := Nat.log_eq_of_pow_le_of_lt_pow hlarge hlt
      omega
    · omega

theorem prefixExact_iff : PrefixExact (toLE32 p.length ++ p) ↔ p.length < 2 ^ 32 := by
  rw [PrefixExact, take_toLE32_append, drop_toLE32_append, ofLE_toLE32]
  constructor
  · intro h
    rw [← h]
    exact Nat.mod_lt _ (by decide)
  · exact Nat.mod_eq_of_lt

theorem received_of_lt (hp : p.length < 2 ^ 32) (hdecode : pc.fromBytes p = .ok f) :
    Received pc f (toLE32 p.length ++ p) := by
  intro maxBytes hm acc hi c cs hc h4 hne
  rw [drop_toLE32_append] at hm
  refine ⟨p, FrameAccumulator.feedAll_cut hi hp hm hc h4 hne, ?_⟩
  rw [decodeFrame, hdecode]

/-- A frame of which one byte too many follows the prefix: it says that no byte does. -/
def Frame.tooLarge : Frame := ⟨1, .message, List.replicate (2 ^ 32 - 7) 0⟩

theorem encodeFrame_tooLarge : ∃ out, encodeFrame .wire .tooLarge = .ok out ∧
    ofLE (out.take 4) = 0 ∧ (out.drop 4).length = 2 ^ 32 := by
  have hlen : Frame.tooLarge.data.length = 2 ^ 32 - 7 := List.length_replicate
  have hf : Frame.tooLarge.data.length < 2 ^ 64 := by omega
  have hlog : Nat.log 128 Frame.tooLarge.data.length = 4 := by
    rw [hlen]
    exact Nat.log_eq_of_pow_le_of_lt_pow (by decide) (by decide)
  have hid : Nat.log 128 Frame.tooLarge.id.toNat = 0 := Nat.log_of_lt (by decide)
  have hpayload : (Postcard.frameBytes .tooLarge).length = 2 ^ 32 := by
    rw [Postcard.length_frameBytes hf, hlog, hid, hlen]
    norm_num
  refine ⟨_, encodeFrame_of_payload (Postcard.wire_inVarintFormat.toStdvec _ hf), ?_, ?_⟩
  · rw [take_toLE32_append, ofLE_toLE32, hpayload, Nat.mod_self]
  · rw [drop_toLE32_append, hpayload]

/-- Every successful result has a right prefix and comes back as the frame exactly if the data, the
digits of the id and seven bytes more stay below `2 ^ 32`. -/
theorem encodeFrame_prefix_iff (hpc : pc.InVarintFormat) (f : Frame)
    (hf : f.data.length < 2 ^ 64) :
    (∀ out, encodeFrame pc f = .ok out → PrefixExact out ∧ Received pc f out) ↔
      f.data.length + Nat.log 128 f.id.toNat + 7 < 2 ^ 32 := by
  rw [← Postcard.length_frameBytes_lt_iff hf, encodeFrame_of_payload (hpc.toStdvec f hf)]
  constructor
  · intro h
    exact prefixExact_iff.mp (h _ rfl).1
  · rintro h out ⟨⟩
    exact ⟨prefixExact_iff.mpr h, received_of_lt h (hpc.fromBytes f hf)⟩

/-- The frame of the round-trip test. -/
theorem encodeFrame_prefix_iff_hello :
    let f : Frame := ⟨42, .message, [104, 101, 108, 108, 111]⟩
    ∀ out, encodeFrame .wire f = .ok out → PrefixExact out ∧ Received .wire f out := by
  intro f
  apply (encodeFrame_prefix_iff Postcard.wire_inVarintFormat f (by decide)).mpr
  have hid : Nat.log 128 f.id.toNat = 0 := Nat.log_of_lt (by decide)
  rw [hid]
  decide

end NotifiTransport

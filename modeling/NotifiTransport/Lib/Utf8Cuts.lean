import NotifiTransport.Lib.Utf8
import NotifiTransport.Lib.Lines
import Mathlib.Data.List.ReduceOption

/-! # Decoding a stream that is cut

The cuts of a stream are marks among its bytes, and the decoder starts afresh at each of them. For
arbitrary bytes a cut changes what is decoded exactly if it is followed by a byte that continues a
character. Line breaks, as all ASCII characters, are decoded whatever stands around them.
-/

namespace Utf8

/-- A stream with its cuts: the bytes, and `none` where it is cut. -/
abbrev Marked := List (Option UInt8)

/-- The stream of the pieces, with a mark after each. -/
def marked (chunks : List Bytes) : Marked := chunks.flatMap fun bs => bs.map some ++ [none]

/-- The same stream in one piece. -/
def uncut (m : Marked) : Marked := m.reduceOption.map some

/-- The characters from a state on. -/
def decodeFrom : Option Pending → Marked → List Char
  | s, [] => flush s
  | s, none :: m => flush s ++ decodeFrom none m
  | s, some b :: m => (step s b.toNat).1 ++ decodeFrom (step s b.toNat).2 m

def decodeMarked (m : Marked) : List Char := decodeFrom none m

/-- The next byte of `y` continues a character that `x` leaves open. -/
def InsideFrom (s : Option Pending) (x y : Bytes) : Prop :=
  ∃ p b z, (run s (x.map UInt8.toNat)).2 = some p ∧ y = b :: z ∧ p.lo ≤ b.toNat ∧ b.toNat ≤ p.hi

/-- No cut is inside a character, be it a whole or an unfinished one. -/
def WholeFrom (s : Option Pending) (m : Marked) : Prop :=
  ∀ x y, m = x ++ none :: y → ¬ InsideFrom s x.reduceOption y.reduceOption

abbrev Inside (x y : Bytes) : Prop := InsideFrom none x y

abbrev Whole (m : Marked) : Prop := WholeFrom none m

/-- No character takes more than one byte. -/
def Narrow (bs : Bytes) : Prop := ∀ x y, bs = x ++ y → ¬ Inside x y

/-- The stream is cut between any two bytes. -/
def Shredded (m : Marked) : Prop := ∀ u a b v, m ≠ u ++ some a :: some b :: v

variable {s : Option Pending} {p : Pending} {b : ℕ} {a : UInt8} {m m' : Marked} {bs x y : Bytes}
  {chunks : List Bytes} {k : ℕ}

section Pending

/-- What an open character may become is a character beyond ASCII. -/
inductive Pending.Wf : Pending → Prop where

  | one {lo hi bits : ℕ} : 0x80 ≤ lo → hi ≤ 0xBF → 0x80 ≤ bits * 64 + (lo - 0x80) →
      (bits * 64 + (hi - 0x80) < 0xD800 ∨
        0xE000 ≤ bits * 64 + (lo - 0x80) ∧ bits * 64 + (hi - 0x80) < 0x110000) →
      Wf ⟨1, lo, hi, bits⟩

  | two {lo hi bits : ℕ} : 0x80 ≤ lo → hi ≤ 0xBF → 2 ≤ bits * 64 + (lo - 0x80) →
      (bits * 64 + (hi - 0x80) < 0x360 ∨
        0x380 ≤ bits * 64 + (lo - 0x80) ∧ bits * 64 + (hi - 0x80) < 0x4400) →
      Wf ⟨2, lo, hi, bits⟩

  | three {lo hi bits : ℕ} : 0x80 ≤ lo → hi ≤ 0xBF → 16 ≤ bits * 64 + (lo - 0x80) →
      bits * 64 + (hi - 0x80) < 0x110 → Wf ⟨3, lo, hi, bits⟩

theorem Pending.Wf.le (hp : p.Wf) : 0x80 ≤ p.lo ∧ p.hi ≤ 0xBF := by
  cases hp with
  | one hlo hhi => exact ⟨hlo, hhi⟩
  | two hlo hhi => exact ⟨hlo, hhi⟩
  | three hlo hhi => exact ⟨hlo, hhi⟩

/-- A byte is an ASCII character, cannot stand at the start of one, or leaves one open. -/
theorem start_cases (b : ℕ) : b < 0x80 ∧ start b = ([Char.ofNat b], none) ∨
    start b = ([replacement], none) ∨ ∃ p : Pending, p.Wf ∧ start b = ([], some p) := by
  rcases lt_or_ge b 0x80 with hb | h₀
  · exact Or.inl ⟨hb, if_pos hb⟩
  apply Or.inr
  rcases lt_or_ge b 0xC2 with hb | h₁
  · apply Or.inl
    rw [start, if_neg (by omega), if_pos hb]
  rcases lt_or_ge b 0xE0 with hb | h₂
  · refine Or.inr ⟨_, ?_, start_two h₁ hb⟩
    apply Pending.Wf.one <;> omega
  rcases lt_or_ge b 0xF0 with hb | h₃
  · refine Or.inr ⟨_, ?_, start_three h₂ hb⟩
    split_ifs <;> apply Pending.Wf.two <;> omega
  rcases lt_or_ge b 0xF5 with hb | h₄
  · refine Or.inr ⟨_, ?_, start_four h₃ hb⟩
    split_ifs <;> apply Pending.Wf.three <;> omega
  · apply Or.inl
    rw [start]
    iterate 9 rw [if_neg (by omega)]

theorem wf_start (h : p ∈ (start b).2) : p.Wf := by
  rcases start_cases b with ⟨-, hs⟩ | hs | ⟨q, hq, hs⟩ <;> rw [hs] at h
  · cases h
  · cases h
  · cases h
    exact hq

theorem toNat_ofNat {n : ℕ} (h : n.isValidChar) : (Char.ofNat n).toNat = n := by
  rw [Char.ofNat, dif_pos h]
  rfl

theorem step_continued (hp : p.Wf) (h : p.lo ≤ b ∧ b ≤ p.hi) :
    (∃ c : Char, 128 ≤ c.toNat ∧ step (some p) b = ([c], none)) ∨
      ∃ p', p'.Wf ∧ step (some p) b = ([], some p') := by
  cases hp with
  | one hlo hhi hlow hvalid =>
    dsimp only at h
    refine Or.inl ⟨_, ?_, step_last h rfl⟩
    dsimp only
    rw [toNat_ofNat (by unfold Nat.isValidChar; omega)]
    omega
  | @two lo hi bits hlo hhi hlow hvalid =>
    have hnext : (⟨1, 0x80, 0xBF, bits * 64 + (b - 0x80)⟩ : Pending).Wf := by
      dsimp only at h
      apply Pending.Wf.one <;> omega
    exact Or.inr ⟨_, hnext, step_more h (Nat.succ_succ_ne_one 0)⟩
  | @three lo hi bits hlo hhi hlow hvalid =>
    have hnext : (⟨2, 0x80, 0xBF, bits * 64 + (b - 0x80)⟩ : Pending).Wf := by
      dsimp only at h
      apply Pending.Wf.two <;> omega
    exact Or.inr ⟨_, hnext, step_more h (Nat.succ_succ_ne_one 1)⟩

/-- A byte that does not continue the open character is read as if there were none. -/
theorem step_broken (h : ¬ (p.lo ≤ b ∧ b ≤ p.hi)) :
    step (some p) b = (replacement :: (start b).1, (start b).2) := by
  rw [step, if_neg h]

/-- Read by itself, such a byte is not UTF-8. -/
theorem start_continued (hp : p.Wf) (h : p.lo ≤ b ∧ b ≤ p.hi) :
    start b = ([replacement], none) := by
  have hbounds := hp.le
  exact start_continuation (by omega) (by omega)

/-- The state of the decoder after any bytes. -/
def Reached (s : Option Pending) : Prop := ∀ p ∈ s, p.Wf

theorem reached_none : Reached none := nofun

theorem Reached.step (hs : Reached s) (b : ℕ) : Reached (Utf8.step s b).2 := by
  cases s with
  | none => exact fun p hp => wf_start hp
  | some p =>
    by_cases h : p.lo ≤ b ∧ b ≤ p.hi
    · rcases step_continued (hs p rfl) h with ⟨c, -, hstep⟩ | ⟨p', hp', hstep⟩ <;> rw [hstep]
      · exact reached_none
      · rintro _ ⟨⟩
        exact hp'
    · rw [step_broken h]
      exact fun p hp => wf_start hp

end Pending

section Pieces

theorem decodeFrom_append_none (s : Option Pending) (m m' : Marked) :
    decodeFrom s (m ++ none :: m') = decodeFrom s m ++ decodeFrom none m' := by
  induction m generalizing s with
  | nil => rfl
  | cons o m ih =>
    cases o with
    | none => rw [List.cons_append, decodeFrom, ih, decodeFrom, List.append_assoc]
    | some b => rw [List.cons_append, decodeFrom, ih, decodeFrom, List.append_assoc]

theorem decodeFrom_map_some (s : Option Pending) (bs : Bytes) : decodeFrom s (bs.map some) =
    (run s (bs.map UInt8.toNat)).1 ++ flush (run s (bs.map UInt8.toNat)).2 := by
  induction bs generalizing s with
  | nil => rfl
  | cons b bs ih => simp only [List.map_cons, decodeFrom, ih, run, List.append_assoc]

/-- A piece without cuts is decoded at once. -/
theorem decodeMarked_map_some (bs : Bytes) : decodeMarked (bs.map some) = fromUtf8Lossy bs :=
  decodeFrom_map_some none bs

theorem decodeChunks_eq_marked (chunks : List Bytes) :
    decodeChunks chunks = decodeMarked (marked chunks) := by
  induction chunks with
  | nil => rfl
  | cons bs chunks ih =>
    have hsplit : marked (bs :: chunks) = bs.map some ++ none :: marked chunks := by
      simp [marked]
    rw [hsplit, decodeMarked, decodeFrom_append_none, ← decodeMarked, decodeMarked_map_some,
      ← decodeMarked, ← ih]
    rfl

theorem reduceOption_map_some (bs : Bytes) : (bs.map some).reduceOption = bs := by
  induction bs with
  | nil => rfl
  | cons b bs ih => rw [List.map_cons, List.reduceOption_cons_of_some, ih]

theorem reduceOption_marked (chunks : List Bytes) :
    (marked chunks).reduceOption = chunks.flatten := by
  induction chunks with
  | nil => rfl
  | cons bs chunks ih =>
    rw [List.flatten_cons, ← ih, marked, List.flatMap_cons, List.reduceOption_append,
      List.reduceOption_append, reduceOption_map_some]
    simp [marked]

end Pieces

section Blurring

theorem Blurred.refl (t : List Char) : Blurred t t := by
  induction t with
  | nil => exact .nil
  | cons c t ih => exact .keep c ih

theorem Blurred.append_left {t t' : List Char} (u : List Char) (h : Blurred t t') :
    Blurred (u ++ t) (u ++ t') := by
  induction u with
  | nil => exact h
  | cons c u ih => exact .keep c ih

theorem Blurred.eq_of_ascii_right {t t' : List Char} (h : Blurred t t')
    (ht' : ∀ c ∈ t', c.toNat < 128) : t' = t := by
  induction h with
  | nil => rfl
  | keep c _ ih => rw [ih fun d hd => ht' d (List.mem_cons_of_mem _ hd)]
  | @lose c n t t' _ hn _ _ =>
    have hmem : replacement ∈ List.replicate n replacement ++ t' :=
      List.mem_append_left _ (List.mem_replicate.mpr ⟨by omega, rfl⟩)
    exact absurd (ht' _ hmem) (by decide)

/-- An ASCII prefix of what is decoded was not replaced. -/
theorem Blurred.of_append_ascii {t u u' : List Char} (h : Blurred t (u ++ u'))
    (hu : ∀ c ∈ u, c.toNat < 128) : ∃ v, t = u ++ v ∧ Blurred v u' := by
  induction u generalizing t with
  | nil => exact ⟨t, rfl, h⟩
  | cons c u ih =>
    obtain ⟨hc, hrest⟩ := List.forall_mem_cons.mp hu
    rw [List.cons_append] at h
    generalize hd : c :: (u ++ u') = d at h
    cases h with
    | nil => cases hd
    | keep c' h =>
      obtain ⟨rfl, rfl⟩ := List.cons.inj hd
      obtain ⟨v, rfl, hv⟩ := ih h hrest
      exact ⟨v, rfl, hv⟩
    | @lose c' n t t' _ hn h =>
      cases n with
      | zero => omega
      | succ n =>
        rw [List.replicate_succ, List.cons_append] at hd
        obtain ⟨rfl, -⟩ := List.cons.inj hd
        exact absurd hc (by decide)

/-- Replaced in `k` parts, the end of an unfinished character stays or becomes longer. -/
theorem Blurred.replaced {t t' : List Char} (hk : 1 ≤ k) (h : Blurred t t') :
    Blurred (replacement :: t) (List.replicate k replacement ++ t') := by
  rcases Nat.eq_or_lt_of_le hk with rfl | hlt
  · exact .keep _ h
  · exact .lose (by decide) hlt h

theorem replicate_concat (k : ℕ) (t : List Char) :
    List.replicate k replacement ++ replacement :: t =
      List.replicate (k + 1) replacement ++ t := by
  rw [List.replicate_succ', List.append_assoc]
  rfl

/-- A cut loses the open character: it has been replaced by as many characters as it has parts. -/
theorem blurred_from (m : Marked) :
    (∀ s, Reached s → Blurred (decodeFrom s (uncut m)) (decodeFrom s m)) ∧
    ∀ p : Pending, p.Wf → ∀ k, 1 ≤ k → Blurred (decodeFrom (some p) (uncut m))
      (List.replicate k replacement ++ decodeFrom none m) := by
  induction m with
  | nil => exact ⟨fun s _ => .refl _, fun p _ k hk => .replaced hk .nil⟩
  | cons o m ih =>
    obtain ⟨ihsync, ihlost⟩ := ih
    cases o with
    | none =>
      constructor
      · intro s hs
        cases s with
        | none => exact ihsync none hs
        | some p => exact ihlost p (hs p rfl) 1 le_rfl
      · exact ihlost
    | some b =>
      have huncut : uncut (some b :: m) = some b :: uncut m := rfl
      rw [huncut]
      constructor
      · intro s hs
        exact (ihsync _ (hs.step _)).append_left _
      · intro p hp k hk
        by_cases h : p.lo ≤ b.toNat ∧ b.toNat ≤ p.hi
        · -- the byte continues the character, and is one more part of it
          have hstart : decodeFrom none (some b :: m) = replacement :: decodeFrom none m := by
            rw [decodeFrom, step, start_continued hp h]
            rfl
          rw [hstart, replicate_concat, decodeFrom]
          rcases step_continued hp h with ⟨c, hc, hstep⟩ | ⟨p', hp', hstep⟩
          · rw [hstep]
            exact .lose hc (by omega) (ihsync none reached_none)
          · rw [hstep]
            exact ihlost p' hp' (k + 1) (by omega)
        · rw [decodeFrom, step_broken h]
          exact .replaced hk ((ihsync _ fun q hq => wf_start hq).append_left _)

/-- What is decoded in pieces is what is decoded at once, with some characters replaced. -/
theorem blurred_decodeMarked (m : Marked) :
    Blurred (fromUtf8Lossy m.reduceOption) (decodeMarked m) := by
  rw [← decodeMarked_map_some]
  exact (blurred_from m).1 none reached_none

end Blurring

section Whole

theorem insideFrom_cons : InsideFrom s (a :: x) y ↔ InsideFrom (step s a.toNat).2 x y := Iff.rfl

theorem not_insideFrom_nil : ¬ InsideFrom none [] y := by
  rintro ⟨p, b, z, hp, -⟩
  cases hp

theorem WholeFrom.tail_some (h : WholeFrom s (some a :: m)) : WholeFrom (step s a.toNat).2 m := by
  rintro x y rfl
  have hcut := h (some a :: x) y rfl
  rwa [List.reduceOption_cons_of_some, insideFrom_cons] at hcut

/-- Behind a cut that is not inside a character the decoder might as well have started afresh. -/
theorem WholeFrom.tail_none (h : WholeFrom s (none :: m)) : WholeFrom none m := by
  rintro x y rfl hin
  have hcut := h (none :: x) y rfl
  rw [List.reduceOption_cons_of_none] at hcut
  cases s with
  | none => exact hcut hin
  | some p =>
    cases hx : x.reduceOption with
    | nil =>
      rw [hx] at hin
      exact not_insideFrom_nil hin
    | cons b bs =>
      have hstart : ¬ InsideFrom (some p) [] (x ++ none :: y).reduceOption := h [] _ rfl
      rw [List.reduceOption_append, hx] at hstart
      have hout : ¬ (p.lo ≤ b.toNat ∧ b.toNat ≤ p.hi) :=
        fun hb => hstart ⟨p, b, _, rfl, rfl, hb⟩
      rw [hx, insideFrom_cons] at hin hcut
      rw [step_broken hout] at hcut
      exact hcut hin

theorem decodeFrom_of_whole (h : WholeFrom s m) : decodeFrom s m = decodeFrom s (uncut m) := by
  induction m generalizing s with
  | nil => rfl
  | cons o m ih =>
    cases o with
    | some b =>
      have huncut : uncut (some b :: m) = some b :: uncut m := rfl
      rw [huncut, decodeFrom, decodeFrom, ih h.tail_some]
    | none =>
      have huncut : uncut (none :: m) = uncut m := rfl
      rw [huncut, decodeFrom, ih h.tail_none]
      cases s with
      | none => rfl
      | some p =>
        have hstart : ¬ InsideFrom (some p) [] m.reduceOption := h [] m rfl
        rw [uncut]
        cases hm : m.reduceOption with
        | nil => rfl
        | cons b bs =>
          rw [hm] at hstart
          have hout : ¬ (p.lo ≤ b.toNat ∧ b.toNat ≤ p.hi) :=
            fun hb => hstart ⟨p, b, bs, rfl, rfl, hb⟩
          rw [List.map_cons, decodeFrom, decodeFrom, step_broken hout]
          rfl

theorem decodeFrom_append_map_some (s : Option Pending) (bs : Bytes) (m : Marked) :
    decodeFrom s (bs.map some ++ m) =
      (run s (bs.map UInt8.toNat)).1 ++ decodeFrom (run s (bs.map UInt8.toNat)).2 m := by
  induction bs generalizing s with
  | nil => rfl
  | cons b bs ih => simp only [List.map_cons, List.cons_append, decodeFrom, ih, run,
      List.append_assoc]

theorem reached_run {ks : List ℕ} (hs : Reached s) : Reached (run s ks).2 := by
  induction ks generalizing s with
  | nil => exact hs
  | cons k ks ih => exact ih (hs.step k)

/-- A cut inside a character makes the text longer. -/
theorem length_lt_of_inside (h : Inside x y) :
    (fromUtf8Lossy (x ++ y)).length < (fromUtf8Lossy x).length + (fromUtf8Lossy y).length := by
  obtain ⟨p, b, z, hp, rfl, hb⟩ := h
  have hwf : p.Wf := reached_run (s := none) reached_none p hp
  have hwhole : (fromUtf8Lossy (x ++ b :: z)).length =
      (run none (x.map UInt8.toNat)).1.length +
        (decodeFrom (some p) (some b :: z.map some)).length := by
    rw [← decodeMarked_map_some, List.map_append, decodeMarked, decodeFrom_append_map_some, hp,
      List.length_append]
    rfl
  have hfirst : (fromUtf8Lossy x).length = (run none (x.map UInt8.toNat)).1.length + 1 := by
    rw [fromUtf8Lossy, hp, List.length_append]
    rfl
  have hsecond : (fromUtf8Lossy (b :: z)).length = (decodeFrom none (z.map some)).length + 1 := by
    rw [← decodeMarked_map_some, List.map_cons, decodeMarked, decodeFrom, step,
      start_continued hwf hb]
    rfl
  rw [hwhole, hfirst, hsecond, decodeFrom]
  rcases step_continued hwf hb with ⟨c, -, hstep⟩ | ⟨p', hp', hstep⟩
  · rw [hstep, List.length_append, List.length_singleton]
    dsimp only
    omega
  · have hlost := ((blurred_from (z.map some)).2 p' hp' 1 le_rfl).length_le
    rw [uncut, reduceOption_map_some, List.length_append, List.length_replicate] at hlost
    rw [hstep, List.nil_append]
    dsimp only
    omega

/-- A stream in pieces is decoded as in one piece exactly if no cut is inside a character. -/
theorem decodeMarked_eq_iff : decodeMarked m = fromUtf8Lossy m.reduceOption ↔ Whole m := by
  constructor
  · rintro heq x y rfl hin
    have hlt := length_lt_of_inside hin
    have hx := (blurred_decodeMarked x).length_le
    have hy := (blurred_decodeMarked y).length_le
    rw [decodeMarked, decodeFrom_append_none, List.reduceOption_append,
      List.reduceOption_cons_of_none] at heq
    have hlen := congrArg List.length heq
    rw [List.length_append, ← decodeMarked, ← decodeMarked] at hlen
    omega
  · intro h
    rw [decodeMarked, decodeFrom_of_whole h, ← decodeMarked_map_some]
    rfl

end Whole

section Ascii

/-- An ASCII character ends what is open before it. -/
theorem step_ascii (hs : Reached s) (hb : b < 128) :
    step s b = (flush s ++ [Char.ofNat b], none) := by
  have hstart : start b = ([Char.ofNat b], none) := if_pos hb
  cases s with
  | none => exact hstart
  | some p =>
    have hbounds := (hs p rfl).le
    rw [step_broken (by omega), hstart]
    rfl

theorem decodeFrom_append_ascii (hs : Reached s) (ha : a.toNat < 128) (m m' : Marked) :
    decodeFrom s (m ++ some a :: m') =
      decodeFrom s m ++ Char.ofNat a.toNat :: decodeFrom none m' := by
  induction m generalizing s with
  | nil =>
    have hcons : decodeFrom s (some a :: m') =
        (step s a.toNat).1 ++ decodeFrom (step s a.toNat).2 m' := rfl
    rw [List.nil_append, hcons, step_ascii hs ha, decodeFrom, List.append_assoc]
    rfl
  | cons o m ih =>
    cases o with
    | none => rw [List.cons_append, decodeFrom, ih reached_none, decodeFrom, List.append_assoc]
    | some b => rw [List.cons_append, decodeFrom, ih (hs.step _), decodeFrom, List.append_assoc]

theorem toNat_ofNat_ascii (hb : b < 128) : (Char.ofNat b).toNat = b :=
  toNat_ofNat (by unfold Nat.isValidChar; omega)

variable {c : Char}

theorem mem_start (hc : c ∈ (start b).1) : 128 ≤ c.toNat ∨ b < 128 ∧ c = Char.ofNat b := by
  rcases start_cases b with ⟨hb, h⟩ | h | ⟨p, -, h⟩ <;> rw [h] at hc
  · exact Or.inr ⟨hb, List.mem_singleton.mp hc⟩
  · rw [List.mem_singleton.mp hc]
    exact Or.inl (by decide)
  · cases hc

theorem mem_step (hs : Reached s) (hc : c ∈ (step s b).1) :
    128 ≤ c.toNat ∨ b < 128 ∧ c = Char.ofNat b := by
  cases s with
  | none => exact mem_start hc
  | some p =>
    by_cases h : p.lo ≤ b ∧ b ≤ p.hi
    · rcases step_continued (hs p rfl) h with ⟨d, hd, hstep⟩ | ⟨p', -, hstep⟩
      · rw [hstep] at hc
        rw [List.mem_singleton.mp hc]
        exact Or.inl hd
      · rw [hstep] at hc
        cases hc
    · rw [step_broken h] at hc
      rcases List.mem_cons.mp hc with rfl | hc
      · exact Or.inl (by decide)
      · exact mem_start hc

theorem mem_flush (hc : c ∈ flush s) : 128 ≤ c.toNat := by
  cases s with
  | none => cases hc
  | some p =>
    rw [List.mem_singleton.mp hc]
    decide

/-- The ASCII characters of the text are bytes of the stream. -/
theorem mem_decodeFrom (hs : Reached s) (hc : c ∈ decodeFrom s m) (hlt : c.toNat < 128) :
    ∃ a : UInt8, some a ∈ m ∧ a.toNat < 128 ∧ c = Char.ofNat a.toNat := by
  induction m generalizing s with
  | nil => exact absurd (mem_flush hc) (not_le.mpr hlt)
  | cons o m ih =>
    cases o with
    | none =>
      rcases List.mem_append.mp hc with hc | hc
      · exact absurd (mem_flush hc) (not_le.mpr hlt)
      · obtain ⟨a, ha, hrest⟩ := ih reached_none hc
        exact ⟨a, List.mem_cons_of_mem _ ha, hrest⟩
    | some b =>
      rcases List.mem_append.mp hc with hc | hc
      · rcases mem_step hs hc with hge | hb
        · exact absurd hge (not_le.mpr hlt)
        · exact ⟨b, List.mem_cons_self, hb⟩
      · obtain ⟨a, ha, hrest⟩ := ih (hs.step _) hc
        exact ⟨a, List.mem_cons_of_mem _ ha, hrest⟩

theorem notMem_decodeMarked (ha : a.toNat < 128) (h : some a ∉ m) :
    Char.ofNat a.toNat ∉ decodeMarked m := by
  intro hc
  have hlt : (Char.ofNat a.toNat).toNat < 128 := by rwa [toNat_ofNat_ascii ha]
  obtain ⟨a', ha', hlt', heq⟩ := mem_decodeFrom reached_none hc hlt
  have hnum := congrArg Char.toNat heq
  rw [toNat_ofNat_ascii ha, toNat_ofNat_ascii hlt'] at hnum
  obtain rfl : a = a' := UInt8.toNat_inj.mp hnum
  exact h ha'

/-- The lines of the text are the lines of the stream, each decoded by itself. -/
theorem cut_decodeMarked (ha : a.toNat < 128) (m : Marked) :
    (Lines.cut (Char.ofNat a.toNat) (decodeMarked m)).1 =
      (Lines.cut (some a) m).1.map decodeMarked := by
  induction m using Lines.line_induction (some a) with
  | rest m h => rw [Lines.cut_of_notMem h, Lines.cut_of_notMem (notMem_decodeMarked ha h)]; rfl
  | line x m hx ih =>
    rw [decodeMarked, decodeFrom_append_ascii reached_none ha, Lines.cut_append_cons hx,
      ← decodeMarked, Lines.cut_append_cons (notMem_decodeMarked ha hx), ← decodeMarked, ih]
    rfl

theorem cut_fromUtf8Lossy (ha : a.toNat < 128) (bs : Bytes) :
    (Lines.cut (Char.ofNat a.toNat) (fromUtf8Lossy bs)).1 =
      (Lines.cut a bs).1.map fromUtf8Lossy := by
  have hmem : ∀ bs : Bytes, a ∉ bs → Char.ofNat a.toNat ∉ fromUtf8Lossy bs := by
    intro bs h
    rw [← decodeMarked_map_some]
    exact notMem_decodeMarked ha (by simpa using h)
  induction bs using Lines.line_induction a with
  | rest bs h => rw [Lines.cut_of_notMem h, Lines.cut_of_notMem (hmem bs h)]; rfl
  | line x bs hx ih =>
    have hsplit : fromUtf8Lossy (x ++ a :: bs) =
        fromUtf8Lossy x ++ Char.ofNat a.toNat :: fromUtf8Lossy bs := by
      simp only [← decodeMarked_map_some, List.map_append, List.map_cons, decodeMarked]
      exact decodeFrom_append_ascii reached_none ha _ _
    rw [hsplit, Lines.cut_append_cons hx, Lines.cut_append_cons (hmem x hx), ih]
    rfl

/-- Cutting at a byte commutes with forgetting the cuts of the stream. -/
theorem cut_reduceOption (a : UInt8) (m : Marked) :
    (Lines.cut a m.reduceOption).1 = (Lines.cut (some a) m).1.map List.reduceOption := by
  have hmem : ∀ m : Marked, some a ∉ m → a ∉ m.reduceOption := by
    intro m h hin
    exact h (List.reduceOption_mem_iff.mp hin)
  induction m using Lines.line_induction (some a) with
  | rest m h => rw [Lines.cut_of_notMem h, Lines.cut_of_notMem (hmem m h)]; rfl
  | line x m hx ih =>
    rw [List.reduceOption_append, List.reduceOption_cons_of_some, Lines.cut_append_cons hx,
      Lines.cut_append_cons (hmem x hx), ih]
    rfl

end Ascii

section Shredded

theorem shredded_marked (bs : Bytes) : Shredded (marked (bs.map ([·]))) := by
  induction bs with
  | nil =>
    intro u a b v h
    simp [marked] at h
  | cons c bs ih =>
    have hsplit : marked ((c :: bs).map ([·])) = some c :: none :: marked (bs.map ([·])) := rfl
    rw [hsplit]
    intro u a b v h
    cases u with
    | nil => simp at h
    | cons o u =>
      cases u with
      | nil => simp at h
      | cons o' u => exact ih u a b v (by simpa using (List.cons.inj (List.cons.inj h).2).2)

theorem Shredded.of_append {u v : Marked} (h : Shredded (u ++ m ++ v)) : Shredded m := by
  rintro u' a b v' rfl
  exact h (u ++ u') a b (v' ++ v) (by simp)

theorem Narrow.whole (h : Narrow m.reduceOption) : Whole m := by
  rintro x y rfl
  apply h
  rw [List.reduceOption_append, List.reduceOption_cons_of_none]

/-- Where every place is cut, a character of two bytes is. -/
theorem Shredded.narrow_of_whole (hs : Shredded m) (h : Whole m) : Narrow m.reduceOption := by
  intro x y hxy hin
  obtain ⟨u, v, rfl, rfl, rfl⟩ := (List.reduceOption_eq_append_iff _ _ _).mp hxy
  cases v with
  | nil =>
    obtain ⟨p, b, z, -, hv, -⟩ := hin
    cases hv
  | cons o v =>
    cases o with
    | none => exact h u v rfl hin
    | some b =>
      rcases List.eq_nil_or_concat u with rfl | ⟨u, o, rfl⟩
      · exact not_insideFrom_nil hin
      · rw [List.concat_eq_append] at *
        cases o with
        | some a => exact hs u a b v (by simp)
        | none =>
          apply h u (some b :: v) (by simp)
          rwa [List.reduceOption_append, List.reduceOption_cons_of_none, List.reduceOption_nil,
            List.append_nil] at hin

end Shredded

end Utf8

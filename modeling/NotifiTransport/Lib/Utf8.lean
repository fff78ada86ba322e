import NotifiTransport.Lib.Bytes

/-! # UTF-8 and its lossy decoding

The decoder reads one byte at a time and remembers the part of a character that it has seen. A part
that cannot be continued, or at which the input ends, is replaced by one U+FFFD. A text that is cut
inside its characters and decoded piece by piece becomes longer: a character that is cut is replaced
at least twice.
-/

namespace Utf8

/-- The numbers of the bytes of a character. -/
def units (c : Char) : List ℕ :=
  let n := c.toNat
  if n < 0x80 then [n]
  else if n < 0x800 then [0xC0 + n / 64, 0x80 + n % 64]
  else if n < 0x10000 then [0xE0 + n / 4096, 0x80 + n / 64 % 64, 0x80 + n % 64]
  else [0xF0 + n / 262144, 0x80 + n / 4096 % 64, 0x80 + n / 64 % 64, 0x80 + n % 64]

def encodeChar (c : Char) : Bytes := (units c).map UInt8.ofNat

def encode (t : List Char) : Bytes := t.flatMap encodeChar

def replacement : Char := Char.ofNat 0xFFFD

/-- The part of a character read so far: how many bytes are missing, the bounds of the next one, and
the bits of the code point. -/
structure Pending where
  missing : ℕ
  lo : ℕ
  hi : ℕ
  bits : ℕ

/-- The first byte of a character, or one that cannot be. -/
def start (b : ℕ) : List Char × Option Pending :=
  if b < 0x80 then ([Char.ofNat b], none)
  else if b < 0xC2 then ([replacement], none)
  else if b < 0xE0 then ([], some ⟨1, 0x80, 0xBF, b - 0xC0⟩)
  else if b = 0xE0 then ([], some ⟨2, 0xA0, 0xBF, 0⟩)
  else if b = 0xED then ([], some ⟨2, 0x80, 0x9F, 0xD⟩)
  else if b < 0xF0 then ([], some ⟨2, 0x80, 0xBF, b - 0xE0⟩)
  else if b = 0xF0 then ([], some ⟨3, 0x90, 0xBF, 0⟩)
  else if b < 0xF4 then ([], some ⟨3, 0x80, 0xBF, b - 0xF0⟩)
  else if b = 0xF4 then ([], some ⟨3, 0x80, 0x8F, 4⟩)
  else ([replacement], none)

/-- One byte, with the characters that it completes or rules out. -/
def step : Option Pending → ℕ → List Char × Option Pending
  | none, b => start b
  | some p, b =>
    if p.lo ≤ b ∧ b ≤ p.hi then
      let bits := p.bits * 64 + (b - 0x80)
      if p.missing = 1 then ([Char.ofNat bits], none)
      else ([], some ⟨p.missing - 1, 0x80, 0xBF, bits⟩)
    else
      let r := start b
      (replacement :: r.1, r.2)

/-- The characters of a row of bytes, and the part of a character at its end. -/
def run : Option Pending → List ℕ → List Char × Option Pending
  | s, [] => ([], s)
  | s, k :: ks =>
    let r := run (step s k).2 ks
    ((step s k).1 ++ r.1, r.2)

/-- The end of the input. -/
def flush : Option Pending → List Char
  | none => []
  | some _ => [replacement]

/-- Decode, replacing what is not UTF-8. -/
def fromUtf8Lossy (bs : Bytes) : List Char :=
  let r := run none (bs.map UInt8.toNat)
  r.1 ++ flush r.2

variable {c : Char} {s s' : Option Pending} {k : ℕ} {ks js : List ℕ} {t : List Char} {bs : Bytes}

theorem toNat_valid (c : Char) : c.toNat < 0xD800 ∨ 0xDFFF < c.toNat ∧ c.toNat < 0x110000 := c.valid

theorem run_append : run s (ks ++ js) =
    ((run s ks).1 ++ (run (run s ks).2 js).1, (run (run s ks).2 js).2) := by
  induction ks generalizing s with
  | nil => rfl
  | cons k ks ih => simp [run, ih]

theorem units_lt (c : Char) : ∀ k ∈ units c, k < 256 := by
  have hc := toNat_valid c
  unfold units
  dsimp only
  split_ifs <;> simp <;> omega

theorem map_toNat_encodeChar (c : Char) : (encodeChar c).map UInt8.toNat = units c := by
  rw [encodeChar, List.map_map]
  calc (units c).map (UInt8.toNat ∘ UInt8.ofNat) = (units c).map id := by
        apply List.map_congr_left
        intro k hk
        exact Nat.mod_eq_of_lt (units_lt c k hk)
    _ = units c := List.map_id _

section Steps

variable {p : Pending} {b : ℕ}

theorem start_two (h : 0xC2 ≤ b) (h' : b < 0xE0) :
    start b = ([], some ⟨1, 0x80, 0xBF, b - 0xC0⟩) := by
  unfold start
  rw [if_neg (by omega), if_neg (by omega), if_pos h']

theorem start_three (h : 0xE0 ≤ b) (h' : b < 0xF0) : start b = ([], some
    ⟨2, if b = 0xE0 then 0xA0 else 0x80, if b = 0xED then 0x9F else 0xBF, b - 0xE0⟩) := by
  unfold start
  rw [if_neg (by omega), if_neg (by omega), if_neg (by omega)]
  by_cases hlo : b = 0xE0
  · subst hlo
    rfl
  · by_cases hhi : b = 0xED
    · subst hhi
      rfl
    · rw [if_neg hlo, if_neg hhi, if_pos h', if_neg hlo, if_neg hhi]

theorem start_four (h : 0xF0 ≤ b) (h' : b < 0xF5) : start b = ([], some
    ⟨3, if b = 0xF0 then 0x90 else 0x80, if b = 0xF4 then 0x8F else 0xBF, b - 0xF0⟩) := by
  unfold start
  rw [if_neg (by omega), if_neg (by omega), if_neg (by omega), if_neg (by omega), if_neg (by omega),
    if_neg (by omega)]
  by_cases hlo : b = 0xF0
  · subst hlo
    rfl
  · by_cases hhi : b = 0xF4
    · subst hhi
      rfl
    · rw [if_neg hlo, if_pos (by omega), if_neg hlo, if_neg hhi]

theorem start_continuation (h : 0x80 ≤ b) (h' : b < 0xC0) : start b = ([replacement], none) := by
  unfold start
  rw [if_neg (by omega), if_pos (by omega)]

theorem step_more (h : p.lo ≤ b ∧ b ≤ p.hi) (hm : p.missing ≠ 1) :
    step (some p) b = ([], some ⟨p.missing - 1, 0x80, 0xBF, p.bits * 64 + (b - 0x80)⟩) := by
  rw [step, if_pos h]
  exact if_neg hm

theorem step_last (h : p.lo ≤ b ∧ b ≤ p.hi) (hm : p.missing = 1) :
    step (some p) b = ([Char.ofNat (p.bits * 64 + (b - 0x80))], none) := by
  rw [step, if_pos h]
  exact if_pos hm

end Steps

/-- The bytes of a character complete it. -/
theorem run_units (c : Char) : run none (units c) = ([c], none) := by
  have hc := toNat_valid c
  have hback : ∀ n, n = c.toNat → Char.ofNat n = c := by
    rintro n rfl
    exact Char.ofNat_toNat c
  unfold units
  dsimp only
  split_ifs with h₁ h₂ h₃
  · simp [run, step, start, h₁]
  · have hs : step none (0xC0 + c.toNat / 64) = ([], some _) :=
      start_two (by omega) (by omega)
    have hl := step_last (p := ⟨1, 0x80, 0xBF, 0xC0 + c.toNat / 64 - 0xC0⟩)
      (b := 0x80 + c.toNat % 64) (by dsimp only; omega) rfl
    simp only [run, hs, hl, List.nil_append, List.append_nil]
    rw [hback]
    omega
  · -- the second byte rules out overlong forms and surrogates
    have hs : step none (0xE0 + c.toNat / 4096) = ([], some _) :=
      start_three (by omega) (by omega)
    have hm := step_more (p := ⟨2, _, _, 0xE0 + c.toNat / 4096 - 0xE0⟩)
      (b := 0x80 + c.toNat / 64 % 64)
      (by
        dsimp only
        constructor
        · show (if 0xE0 + c.toNat / 4096 = 0xE0 then 0xA0 else 0x80) ≤ _
          split_ifs <;> omega
        · show _ ≤ (if 0xE0 + c.toNat / 4096 = 0xED then 0x9F else 0xBF)
          split_ifs <;> omega) (by dsimp only; omega)
    have hl := step_last (p := ⟨1, 0x80, 0xBF, (0xE0 + c.toNat / 4096 - 0xE0) * 64 +
      (0x80 + c.toNat / 64 % 64 - 0x80)⟩) (b := 0x80 + c.toNat % 64) (by dsimp only; omega) rfl
    simp only [run, hs, hm, hl, List.nil_append, List.append_nil]
    rw [hback]
    omega
  · have hs : step none (0xF0 + c.toNat / 262144) = ([], some _) :=
      start_four (by omega) (by omega)
    have hm := step_more (p := ⟨3, _, _, 0xF0 + c.toNat / 262144 - 0xF0⟩)
      (b := 0x80 + c.toNat / 4096 % 64)
      (by
        dsimp only
        constructor
        · show (if 0xF0 + c.toNat / 262144 = 0xF0 then 0x90 else 0x80) ≤ _
          split_ifs <;> omega
        · show _ ≤ (if 0xF0 + c.toNat / 262144 = 0xF4 then 0x8F else 0xBF)
          split_ifs <;> omega) (by dsimp only; omega)
    have hm' := step_more (p := ⟨2, 0x80, 0xBF, (0xF0 + c.toNat / 262144 - 0xF0) * 64 +
      (0x80 + c.toNat / 4096 % 64 - 0x80)⟩) (b := 0x80 + c.toNat / 64 % 64)
      (by dsimp only; omega) (by dsimp only; omega)
    have hl := step_last (p := ⟨1, 0x80, 0xBF, ((0xF0 + c.toNat / 262144 - 0xF0) * 64 +
      (0x80 + c.toNat / 4096 % 64 - 0x80)) * 64 + (0x80 + c.toNat / 64 % 64 - 0x80)⟩)
      (b := 0x80 + c.toNat % 64) (by dsimp only; omega) rfl
    simp only [run, hs, hm, hm', hl, List.nil_append, List.append_nil]
    rw [hback]
    omega

theorem ite_ne {β : Type*} {P : Prop} [Decidable P] {a b x : β} (ha : a ≠ x) (hb : b ≠ x) :
    (if P then a else b) ≠ x := by
  split
  · exact ha
  · exact hb

/-- A byte completes a character, rules one out or leaves one open. -/
theorem step_ne (s : Option Pending) (k : ℕ) : step s k ≠ ([], none) := by
  have hstart : start k ≠ ([], none) := by
    unfold start
    repeat' apply ite_ne
    all_goals simp
  cases s with
  | none => exact hstart
  | some p =>
    simp only [step]
    split_ifs <;> simp

theorem eq_nil_of_run (h : run s ks = ([], none)) : s = none ∧ ks = [] := by
  induction ks generalizing s with
  | nil =>
    cases h
    exact ⟨rfl, rfl⟩
  | cons k ks ih =>
    simp only [run, Prod.mk.injEq, List.append_eq_nil_iff] at h
    obtain ⟨⟨hemit, hrest⟩, hend⟩ := h
    obtain ⟨hs, rfl⟩ := ih (Prod.ext hrest hend)
    exact absurd (Prod.ext hemit hs) (step_ne s k)

/-- The first bytes of a character leave it open. -/
theorem run_of_prefix (h : ks ++ js = units c) (hks : ks ≠ []) (hjs : js ≠ []) :
    ∃ p, run none ks = ([], some p) := by
  have hrun := run_units c
  rw [← h, run_append, Prod.mk.injEq] at hrun
  obtain ⟨hemit, hend⟩ := hrun
  rcases hr : run none ks with ⟨t, s⟩
  rw [hr] at hemit hend
  dsimp only at hemit hend
  rcases List.append_eq_singleton_iff.mp hemit with ⟨rfl, -⟩ | ⟨rfl, hnil⟩
  · cases s with
    | some p => exact ⟨p, rfl⟩
    | none => exact absurd (eq_nil_of_run hr).2 hks
  · exact absurd (eq_nil_of_run (Prod.ext hnil hend)).2 hjs

theorem units_ne_nil (c : Char) : units c ≠ [] := by
  unfold units
  dsimp only
  split_ifs <;> simp

/-- The bytes after the first are continuation bytes, and only one byte is an ASCII character. -/
theorem units_tail (h : units c = k :: ks) :
    (∀ j ∈ ks, 0x80 ≤ j ∧ j < 0xC0) ∧ (ks ≠ [] → 128 ≤ c.toNat) := by
  unfold units at h
  dsimp only at h
  split_ifs at h with h₁ h₂ h₃
  all_goals
    obtain ⟨-, rfl⟩ := List.cons.inj h
    constructor
    · simp
      try omega
    · intro hne
      first | omega | exact absurd rfl hne

@[simp] theorem encode_nil : encode [] = [] := rfl

@[simp] theorem encode_cons (c : Char) (t : List Char) : encode (c :: t) = encodeChar c ++ encode t :=
  List.flatMap_cons

@[simp] theorem encode_append (t t' : List Char) : encode (t ++ t') = encode t ++ encode t' :=
  List.flatMap_append

theorem lossy_encodeChar_append (c : Char) (bs : Bytes) :
    fromUtf8Lossy (encodeChar c ++ bs) = c :: fromUtf8Lossy bs := by
  simp [fromUtf8Lossy, map_toNat_encodeChar, run_append, run_units]

@[simp] theorem lossy_encode (t : List Char) : fromUtf8Lossy (encode t) = t := by
  induction t with
  | nil => rfl
  | cons c t ih => rw [encode_cons, lossy_encodeChar_append, ih]

theorem encode_injective : Function.Injective encode := by
  intro t t' h
  rw [← lossy_encode t, h, lossy_encode]

theorem lossy_continuation {b : UInt8} (h : 0x80 ≤ b.toNat ∧ b.toNat < 0xC0) (bs : Bytes) :
    fromUtf8Lossy (b :: bs) = replacement :: fromUtf8Lossy bs := by
  simp [fromUtf8Lossy, run, step, start_continuation h.1 h.2]

/-- An unfinished character at the end is replaced once. -/
theorem lossy_prefix {cs : Bytes} (h : bs ++ cs = encodeChar c) (hbs : bs ≠ []) (hcs : cs ≠ []) :
    fromUtf8Lossy bs = [replacement] := by
  have hmap : bs.map UInt8.toNat ++ cs.map UInt8.toNat = units c := by
    rw [← List.map_append, h, map_toNat_encodeChar]
  obtain ⟨p, hp⟩ := run_of_prefix hmap (by simpa using hbs) (by simpa using hcs)
  rw [fromUtf8Lossy, hp]
  rfl

section Chunks

variable {chunks : List Bytes} {b : UInt8} {cs : Bytes} {t' : List Char}

/-- Decode pieces one by one. -/
def decodeChunks (chunks : List Bytes) : List Char := chunks.flatMap fromUtf8Lossy

/-- No piece begins or ends inside a character. -/
def AtBoundaries (chunks : List Bytes) : Prop := ∀ bs ∈ chunks, ∃ t, bs = encode t

/-- Some characters beyond ASCII are replaced, each at least twice. -/
inductive Blurred : List Char → List Char → Prop where
  | nil : Blurred [] []
  | keep (c : Char) {t t' : List Char} : Blurred t t' → Blurred (c :: t) (c :: t')
  | lose {c : Char} {n : ℕ} {t t' : List Char} : 128 ≤ c.toNat → 2 ≤ n → Blurred t t' →
      Blurred (c :: t) (List.replicate n replacement ++ t')

theorem Blurred.length_le (h : Blurred t t') : t.length ≤ t'.length := by
  induction h with
  | nil => exact le_rfl
  | keep c _ ih =>
    rw [List.length_cons, List.length_cons]
    omega
  | lose _ hn _ ih =>
    rw [List.length_cons, List.length_append, List.length_replicate]
    omega

theorem Blurred.append {u d : List Char} (h : Blurred (t ++ u) d) :
    ∃ t' u', d = t' ++ u' ∧ Blurred t t' ∧ Blurred u u' := by
  induction t generalizing d with
  | nil => exact ⟨[], d, rfl, .nil, h⟩
  | cons c t ih =>
    cases h with
    | keep _ h =>
      obtain ⟨t', u', rfl, ht, hu⟩ := ih h
      exact ⟨c :: t', u', rfl, .keep c ht, hu⟩
    | @lose _ n _ _ hwide hn h =>
      obtain ⟨t', u', rfl, ht, hu⟩ := ih h
      exact ⟨List.replicate n replacement ++ t', u', (List.append_assoc _ _ _).symm,
        .lose hwide hn ht, hu⟩

/-- ASCII characters are never replaced. -/
theorem Blurred.eq_of_ascii (h : Blurred t t') (ht : ∀ c ∈ t, c.toNat < 128) : t' = t := by
  induction h with
  | nil => rfl
  | keep c _ ih => rw [ih fun d hd => ht d (List.mem_cons_of_mem _ hd)]
  | @lose c n _ _ hwide _ _ _ =>
    have hc := ht c List.mem_cons_self
    omega

theorem Blurred.append_ascii {u d : List Char} (h : Blurred (t ++ u) d)
    (ht : ∀ c ∈ t, c.toNat < 128) : ∃ u', d = t ++ u' ∧ Blurred u u' := by
  obtain ⟨t', u', rfl, hkeep, hu⟩ := h.append
  exact ⟨u', by rw [hkeep.eq_of_ascii ht], hu⟩

theorem Blurred.notMem {d : Char} (h : Blurred t t') (hd : d ≠ replacement) (ht : d ∉ t) :
    d ∉ t' := by
  induction h with
  | nil => exact ht
  | keep c _ ih =>
    rw [List.mem_cons, not_or] at ht ⊢
    exact ⟨ht.1, ih ht.2⟩
  | lose _ _ _ ih =>
    rw [List.mem_append, List.mem_replicate, not_or]
    exact ⟨fun h => hd h.2, ih (List.not_mem_of_not_mem_cons ht)⟩

/-- Replacing characters leaves more characters that meet a predicate of the replacement. -/
theorem Blurred.eq_or_countP_lt {q : Char → Bool} (hq : q replacement = true) (h : Blurred t t') :
    t' = t ∨ t.countP q < t'.countP q := by
  induction h with
  | nil => exact Or.inl rfl
  | keep c _ ih =>
    rcases ih with rfl | hlt
    · exact Or.inl rfl
    · apply Or.inr
      rw [List.countP_cons, List.countP_cons]
      omega
  | @lose c n u u' _ hn _ ih =>
    apply Or.inr
    have hrep : (List.replicate n replacement).countP q = n := by
      simp [List.countP_replicate, hq]
    have hle : u.countP q ≤ u'.countP q := by
      rcases ih with rfl | hlt
      · exact le_rfl
      · exact hlt.le
    rw [List.countP_append, hrep, List.countP_cons]
    split <;> omega

theorem decodeChunks_continuation (h : chunks.flatten = b :: bs)
    (hb : 0x80 ≤ b.toNat ∧ b.toNat < 0xC0) : ∃ chunks', chunks'.flatten = bs ∧
      decodeChunks chunks = replacement :: decodeChunks chunks' := by
  induction chunks with
  | nil => cases h
  | cons ck chunks ih =>
    cases ck with
    | nil => exact ih h
    | cons a ck =>
      obtain ⟨rfl, hrest⟩ := List.cons.inj h
      exact ⟨ck :: chunks, hrest, by simp [decodeChunks, lossy_continuation hb]⟩

theorem decodeChunks_continuations (h : chunks.flatten = cs ++ bs)
    (hcs : ∀ b ∈ cs, 0x80 ≤ b.toNat ∧ b.toNat < 0xC0) : ∃ chunks', chunks'.flatten = bs ∧
      decodeChunks chunks = List.replicate cs.length replacement ++ decodeChunks chunks' := by
  induction cs generalizing chunks with
  | nil => exact ⟨chunks, h, rfl⟩
  | cons b cs ih =>
    obtain ⟨chunks₁, h₁, heq₁⟩ := decodeChunks_continuation h (hcs b List.mem_cons_self)
    obtain ⟨chunks₂, h₂, heq₂⟩ := ih h₁ fun a ha => hcs a (List.mem_cons_of_mem _ ha)
    exact ⟨chunks₂, h₂, by rw [heq₁, heq₂]; rfl⟩

theorem encodeChar_ne_nil (c : Char) : encodeChar c ≠ [] := by
  rw [encodeChar, Ne, List.map_eq_nil_iff]
  exact units_ne_nil c

/-- What is left of a character after some of its bytes are continuation bytes. -/
theorem encodeChar_append (h : encodeChar c = bs ++ cs) (hbs : bs ≠ []) (hcs : cs ≠ []) :
    (∀ b ∈ cs, 0x80 ≤ b.toNat ∧ b.toNat < 0xC0) ∧ 128 ≤ c.toNat := by
  obtain ⟨a, bs, rfl⟩ := List.exists_cons_of_ne_nil hbs
  have hunits : units c = a.toNat :: (bs ++ cs).map UInt8.toNat := by
    rw [← map_toNat_encodeChar, h]
    rfl
  obtain ⟨hcont, htwo⟩ := units_tail hunits
  constructor
  · intro b hb
    exact hcont b.toNat (List.mem_map_of_mem (List.mem_append_right _ hb))
  · exact htwo (by simp [hcs])

theorem AtBoundaries.cons (t : List Char) (h : AtBoundaries chunks) :
    AtBoundaries (encode t :: chunks) :=
  List.forall_mem_cons.mpr ⟨⟨t, rfl⟩, h⟩

/-- A character in pieces is decoded if it is whole, and else replaced in both of its parts. -/
theorem decodeChunks_char (h : chunks.flatten = encodeChar c ++ bs) :
    ∃ chunks', chunks'.flatten = bs ∧
      (decodeChunks chunks = c :: decodeChunks chunks' ∧
          (AtBoundaries chunks' → AtBoundaries chunks) ∨
        128 ≤ c.toNat ∧ ∃ n, 2 ≤ n ∧
          decodeChunks chunks = List.replicate n replacement ++ decodeChunks chunks') := by
  induction chunks with
  | nil => exact absurd (List.append_eq_nil_iff.mp h.symm).1 (encodeChar_ne_nil c)
  | cons ck chunks ih =>
    rw [List.flatten_cons] at h
    rcases List.append_eq_append_iff.mp h with ⟨u, hu, hrest⟩ | ⟨u, rfl, rfl⟩
    · by_cases hck : ck = []
      · subst hck
        obtain ⟨chunks', h', hcases⟩ := ih h
        refine ⟨chunks', h', hcases.imp ?_ id⟩
        rintro ⟨heq, hat⟩
        exact ⟨heq, fun hall => (hat hall).cons []⟩
      · by_cases hne : u = []
        · subst hne
          obtain rfl : ck = encode [c] := by simpa using hu.symm
          refine ⟨chunks, hrest, Or.inl ⟨?_, fun hall => hall.cons [c]⟩⟩
          rw [decodeChunks, List.flatMap_cons, lossy_encode]
          rfl
        · -- the character is cut
          obtain ⟨hcont, hwide⟩ := encodeChar_append hu hck hne
          obtain ⟨chunks', h', heq⟩ := decodeChunks_continuations hrest hcont
          refine ⟨chunks', h', Or.inr ⟨hwide, u.length + 1, ?_, ?_⟩⟩
          · have hpos := List.length_pos_iff.mpr hne
            omega
          · have hdecode : decodeChunks (ck :: chunks) = replacement :: decodeChunks chunks := by
              simp [decodeChunks, lossy_prefix hu.symm hck hne]
            rw [hdecode, heq]
            rfl
    · refine ⟨u :: chunks, rfl, Or.inl ⟨by simp [decodeChunks, lossy_encodeChar_append], ?_⟩⟩
      intro hall
      obtain ⟨⟨t, rfl⟩, hrest⟩ := List.forall_mem_cons.mp hall
      rw [← encode_cons]
      exact AtBoundaries.cons (c :: t) hrest

/-- The pieces of a text decode to the text with some characters replaced; if none is, no character
was cut. -/
theorem decodeChunks_blurred (h : chunks.flatten = encode t) :
    Blurred t (decodeChunks chunks) ∧ (decodeChunks chunks = t → AtBoundaries chunks) := by
  induction t generalizing chunks with
  | nil =>
    have hnil : ∀ bs ∈ chunks, bs = [] := List.flatten_eq_nil_iff.mp h
    have hdecode : decodeChunks chunks = [] := by
      rw [decodeChunks, List.flatMap_eq_nil_iff]
      intro bs hbs
      rw [hnil bs hbs]
      rfl
    rw [hdecode]
    exact ⟨.nil, fun _ bs hbs => ⟨[], hnil bs hbs⟩⟩
  | cons c t ih =>
    rw [encode_cons] at h
    obtain ⟨chunks', h', ⟨heq, hat⟩ | ⟨hwide, n, hn, heq⟩⟩ := decodeChunks_char h
    · obtain ⟨hblur, hall⟩ := ih h'
      rw [heq]
      exact ⟨.keep c hblur, fun hsame => hat (hall (List.cons.inj hsame).2)⟩
    · obtain ⟨hblur, -⟩ := ih h'
      rw [heq]
      constructor
      · exact .lose hwide hn hblur
      · intro hsame
        have hlen := congrArg List.length hsame
        have hle := hblur.length_le
        rw [List.length_append, List.length_replicate, List.length_cons] at hlen
        omega

/-- Pieces that respect the characters decode to the text. -/
theorem AtBoundaries.decodeChunks (hat : AtBoundaries chunks) (h : chunks.flatten = encode t) :
    decodeChunks chunks = t := by
  have hencode : encode (Utf8.decodeChunks chunks) = chunks.flatten := by
    clear h
    induction chunks with
    | nil => rfl
    | cons ck chunks ih =>
      obtain ⟨⟨u, rfl⟩, hrest⟩ := List.forall_mem_cons.mp hat
      rw [Utf8.decodeChunks, List.flatMap_cons, encode_append, lossy_encode, List.flatten_cons]
      exact congrArg _ (ih hrest)
  exact encode_injective (hencode.trans h)

theorem decodeChunks_eq_iff (h : chunks.flatten = encode t) :
    decodeChunks chunks = t ↔ AtBoundaries chunks := by
  constructor
  · exact (decodeChunks_blurred h).2
  · intro hat
    exact hat.decodeChunks h

end Chunks

end Utf8

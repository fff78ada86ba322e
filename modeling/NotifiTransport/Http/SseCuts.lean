import NotifiTransport.Http.SseLine
import NotifiTransport.Http.SseRoundTrip
import NotifiTransport.Lib.Utf8Cuts

/-! # Chunks of a stream

Every chunk is decoded by itself, so a cut inside a character replaces the character. The handler
notices it exactly if the character is in a data line, or in the event type, of some call.
-/

namespace NotifiTransport

open Utf8 (Blurred Marked Whole Narrow)

namespace SseLine

variable {α : Type} (k : α → SseLine)

/-- The next call shows the event type that was set last; `d` tells whether there are data. -/
def typeShown : Bool → List α → Bool
  | _, [] => false
  | d, x :: xs =>
    match k x with
    | .blank => d || typeShown false xs
    | .event _ => false
    | .data _ => typeShown true xs
    | .other => typeShown d xs

/-- A call follows. -/
def dataShown (xs : List α) : Bool := xs.any fun x => k x == .blank

/-- The lines whose value a call shows. -/
def shown : Bool → List α → List α
  | _, [] => []
  | d, x :: xs =>
    match k x with
    | .blank => shown false xs
    | .event _ => if typeShown k d xs then x :: shown d xs else shown d xs
    | .data _ => if dataShown k xs then x :: shown true xs else shown true xs
    | .other => shown d xs

end SseLine

/-- The lines of a stream that a call shows. -/
def shownLines (bs : Bytes) : List Bytes :=
  SseLine.shown (fun l => .of (Utf8.fromUtf8Lossy l)) false (Lines.cut 0x0A bs).1

/-- No chunk ends inside a character of a line that a call shows. -/
def LeavesWhole (chunks : List Bytes) : Prop :=
  ∀ m ∈ SseLine.shown (fun m : Marked => .of (Utf8.fromUtf8Lossy m.reduceOption)) false
    (Lines.cut (some 0x0A) (Utf8.marked chunks)).1, Whole m

variable {α β : Type} {k : α → SseLine} {t t' : Text} {f f' : SseFields} {d : Bool}
  {xs : List α} {chunks : List Bytes} {bs : Bytes}

section Blurring

theorem trim_eq_trim_iff_of_blurred (h : Blurred t t') : trim t' = trim t ↔ t' = t := by
  constructor
  · intro htrim
    rcases h.eq_or_countP_lt (q := (!isWhitespace ·)) (by decide) with rfl | hlt
    · rfl
    · have hcount := Trim.countP_trimBy isWhitespace t'
      rw [← trim_eq_trimBy, htrim, trim_eq_trimBy, Trim.countP_trimBy] at hcount
      omega
  · rintro rfl
    rfl

/-- A field of a line is one of the decoded line, with its value replaced. -/
theorem stripPrefix_of_blurred (pre : Text) (hpre : ∀ c ∈ pre, c.toNat < 128) (h : Blurred t t') :
    (stripPrefix pre t = none ∧ stripPrefix pre t' = none) ∨
      ∃ v v', stripPrefix pre t = some v ∧ stripPrefix pre t' = some v' ∧
        (trim v' = trim v ↔ t' = t) := by
  have hstrip : ∀ v, stripPrefix pre (pre ++ v) = some v := by
    intro v
    rw [stripPrefix, if_pos (List.prefix_append pre v), List.drop_left]
  by_cases hp : pre <+: t
  · obtain ⟨v, rfl⟩ := hp
    obtain ⟨v', rfl, hv⟩ := h.append_ascii hpre
    refine Or.inr ⟨v, v', hstrip v, hstrip v', ?_⟩
    rw [trim_eq_trim_iff_of_blurred hv, List.append_right_inj]
  · have hp' : ¬ pre <+: t' := by
      rintro ⟨v', rfl⟩
      obtain ⟨v, rfl, -⟩ := h.of_append_ascii hpre
      exact hp (List.prefix_append pre v)
    exact Or.inl ⟨if_neg hp, if_neg hp'⟩

/-- Replaced characters change the value of a line, but not its kind. -/
inductive SseLine.Kin (same : Prop) : SseLine → SseLine → Prop where

  | blank : same → Kin same .blank .blank

  | event {v v' : Text} : (v' = v ↔ same) → Kin same (.event v) (.event v')

  | data {v v' : Text} : (v' = v ↔ same) → Kin same (.data v) (.data v')

  | other : Kin same .other .other

theorem SseLine.kin_of_blurred (h : Blurred t t') : Kin (t' = t) (.of t) (.of t') := by
  have hreturns : ∀ t : Text, t.all (· == '\r') = true → ∀ c ∈ t, c.toNat < 128 := by
    intro t ht c hc
    rw [List.all_eq_true] at ht
    rw [beq_iff_eq.mp (ht c hc)]
    decide
  by_cases hall : t.all (· == '\r') = true
  · obtain rfl := h.eq_of_ascii (hreturns t hall)
    rw [of, if_pos hall]
    exact .blank rfl
  · have hall' : ¬ t'.all (· == '\r') = true := by
      intro hr
      obtain rfl := h.eq_of_ascii_right (hreturns t' hr)
      exact hall hr
    rw [of, of, if_neg hall, if_neg hall']
    rcases stripPrefix_of_blurred "event:".toList (ascii_of_all rfl) h with
      ⟨he, he'⟩ | ⟨v, v', he, he', hv⟩
    · rw [he, he']
      dsimp only
      rcases stripPrefix_of_blurred "data:".toList (ascii_of_all rfl) h with
        ⟨hd, hd'⟩ | ⟨v, v', hd, hd', hv⟩
      · rw [hd, hd']
        exact .other
      · rw [hd, hd']
        exact .data hv
    · rw [he, he']
      exact .event hv

end Blurring

section Calls

theorem joinLines_inj {ls ls' : List Text} (hlen : ls.length = ls'.length)
    (h : ∀ l ∈ ls, '\n' ∉ l) (h' : ∀ l ∈ ls', '\n' ∉ l) :
    joinLines ls = joinLines ls' ↔ ls = ls' := by
  constructor
  · intro hjoin
    rcases List.eq_nil_or_concat ls with rfl | ⟨init, l, rfl⟩
    · exact (List.eq_nil_of_length_eq_zero hlen.symm).symm
    · have hne : init.concat l ≠ [] := by simp
      have hne' : ls' ≠ [] := by
        rintro rfl
        simp at hlen
      have hsplit := congrArg (List.splitOn '\n') hjoin
      rwa [joinLines, joinLines, List.splitOn_intercalate _ h hne,
        List.splitOn_intercalate _ h' hne'] at hsplit
  · rintro rfl
    rfl

theorem SseLine.newline_notMem {v : Text} (h : of t = .data v) (ht : '\n' ∉ t) : '\n' ∉ v := by
  unfold of at h
  split_ifs at h
  split at h
  · cases h
  · split at h
    · next w hw =>
      cases h
      unfold stripPrefix at hw
      split_ifs at hw
      cases hw
      intro hmem
      exact ht (List.mem_of_mem_drop (Trim.mem_of_mem_trimBy hmem))
    · cases h

namespace SseFields

/-- Both readers have as many data lines, none of which contains a line break. -/
structure Level (f f' : SseFields) : Prop where
  length_eq : f.dataLines.length = f'.dataLines.length
  newline_notMem : ∀ l ∈ f.dataLines, '\n' ∉ l
  newline_notMem' : ∀ l ∈ f'.dataLines, '\n' ∉ l

theorem level_new : Level new new :=
  ⟨rfl, List.forall_mem_nil _, List.forall_mem_nil _⟩

theorem Level.event (h : Level f f') (v v' : Text) : Level ⟨v, f.dataLines⟩ ⟨v', f'.dataLines⟩ :=
  ⟨h.length_eq, h.newline_notMem, h.newline_notMem'⟩

theorem Level.data {v v' : Text} (h : Level f f') (hv : '\n' ∉ v) (hv' : '\n' ∉ v') :
    Level ⟨f.eventType, f.dataLines ++ [v]⟩ ⟨f'.eventType, f'.dataLines ++ [v']⟩ := by
  constructor
  · simp [h.length_eq]
  · exact List.forall_mem_append.mpr ⟨h.newline_notMem, List.forall_mem_singleton.mpr hv⟩
  · exact List.forall_mem_append.mpr ⟨h.newline_notMem', List.forall_mem_singleton.mpr hv'⟩

/-- Two readers of related lines make the same calls exactly if the values that a call shows are the
same. -/
theorem takeAll_eq_iff {a b : α → Text} (hx : ∀ x ∈ xs, Blurred (a x) (b x) ∧ '\n' ∉ a x)
    (h : Level f f') (hd : d = !f.dataLines.isEmpty) :
    (f.takeAll (xs.map fun x => .of (a x))).2 = (f'.takeAll (xs.map fun x => .of (b x))).2 ↔
      (SseLine.dataShown (fun x => .of (a x)) xs = true → f.dataLines = f'.dataLines) ∧
      (SseLine.typeShown (fun x => .of (a x)) d xs = true → f.eventType = f'.eventType) ∧
      ∀ x ∈ SseLine.shown (fun x => .of (a x)) d xs, b x = a x := by
  induction xs generalizing f f' d with
  | nil => simp [takeAll, SseLine.dataShown, SseLine.typeShown, SseLine.shown]
  | cons x xs ih =>
    obtain ⟨⟨hblur, hn⟩, hxs⟩ := List.forall_mem_cons.mp hx
    have hn' : '\n' ∉ b x := hblur.notMem (by decide) hn
    have hkin := SseLine.kin_of_blurred hblur
    rw [List.map_cons, List.map_cons, takeAll, takeAll, SseLine.dataShown, List.any_cons,
      ← SseLine.dataShown, SseLine.typeShown, SseLine.shown]
    generalize hk : SseLine.of (a x) = l at hkin
    generalize hk' : SseLine.of (b x) = l' at hkin
    cases hkin with
    | blank hsame =>
      by_cases hf : f.dataLines = []
      · have hf' : f'.dataLines = [] := List.eq_nil_of_length_eq_zero (by simp [← h.length_eq, hf])
        have hrest := ih hxs h (d := false) (by simp [hf])
        simp only [take, if_pos hf, if_pos hf', List.nil_append, hrest, hd]
        simp [hf, hf']
      · have hf' : f'.dataLines ≠ [] := by
          intro hnil
          have hlen := h.length_eq
          rw [hnil] at hlen
          exact hf (List.eq_nil_of_length_eq_zero hlen)
        have hrest := ih (d := false) hxs level_new rfl
        have hdata : d = true := by simp [hd, hf]
        simp only [take, if_neg hf, if_neg hf', List.singleton_append, List.cons.injEq,
          Prod.mk.injEq, joinLines_inj h.length_eq h.newline_notMem h.newline_notMem', hrest, hdata,
          BEq.rfl, Bool.true_or, forall_const, implies_true, true_and]
        rw [and_comm (a := f.eventType = f'.eventType), and_assoc]
    | @event v v' hv =>
      have hrest := ih hxs (h.event v v') hd
      have hval : v = v' ↔ b x = a x := eq_comm.trans hv
      simp only [take, List.nil_append, hrest, hval]
      cases SseLine.typeShown (fun x => SseLine.of (a x)) d xs with
      | false => simp
      | true => simp
    | @data v v' hv =>
      have hvn : '\n' ∉ v := SseLine.newline_notMem hk hn
      have hvn' : '\n' ∉ v' := SseLine.newline_notMem hk' hn'
      have hrest := ih hxs (h.data hvn hvn') (d := true) (by simp)
      have hlast : f.dataLines ++ [v] = f'.dataLines ++ [v'] ↔
          f.dataLines = f'.dataLines ∧ b x = a x := by
        rw [List.append_singleton_inj, eq_comm (a := v), hv]
      simp only [take, List.nil_append, hrest, hlast]
      cases SseLine.dataShown (fun x => SseLine.of (a x)) xs with
      | false => simp
      | true =>
        simp only [Bool.or_true, if_true, List.forall_mem_cons, forall_const]
        rw [and_assoc, and_left_comm (a := b x = a x)]
    | other =>
      have hrest := ih hxs h hd
      simp only [take, List.nil_append, hrest]
      simp

end SseFields

end Calls

section Cuts

theorem SseLine.typeShown_comp (g : β → α) (d : Bool) (ys : List β) :
    typeShown (fun y => k (g y)) d ys = typeShown k d (ys.map g) := by
  induction ys generalizing d with
  | nil => rfl
  | cons y ys ih => simp only [List.map_cons, typeShown, ih]

/-- Which lines are shown depends on their kinds only. -/
theorem SseLine.map_shown (g : β → α) (d : Bool) (ys : List β) :
    (shown (fun y => k (g y)) d ys).map g = shown k d (ys.map g) := by
  induction ys generalizing d with
  | nil => rfl
  | cons y ys ih =>
    have hdata : dataShown (fun y => k (g y)) ys = dataShown k (ys.map g) := by
      rw [dataShown, dataShown, List.any_map]
      rfl
    rw [List.map_cons, shown, shown, typeShown_comp, hdata]
    cases k (g y) with
    | blank | other => exact ih _
    | event v => dsimp only; split_ifs <;> simp [ih]
    | data v => dsimp only; split_ifs <;> simp [ih]

theorem SseLine.shown_sublist (d : Bool) (xs : List α) : (shown k d xs).Sublist xs := by
  induction xs generalizing d with
  | nil => exact .slnil
  | cons y ys ih =>
    rw [shown]
    cases k y with
    | blank | other => exact (ih _).cons y
    | event v =>
      dsimp only
      split_ifs
      · exact (ih d).cons_cons y
      · exact (ih d).cons y
    | data v =>
      dsimp only
      split_ifs
      · exact (ih true).cons_cons y
      · exact (ih true).cons y

theorem newline_eq : Char.ofNat (0x0A : UInt8).toNat = '\n' := rfl

theorem lines_decodeChunks (chunks : List Bytes) :
    (Lines.cut '\n' (Utf8.decodeChunks chunks)).1 =
      (Lines.cut (some 0x0A) (Utf8.marked chunks)).1.map Utf8.decodeMarked := by
  rw [Utf8.decodeChunks_eq_marked, ← newline_eq, Utf8.cut_decodeMarked (by decide)]

theorem lines_decode_flatten (chunks : List Bytes) :
    (Lines.cut '\n' (Utf8.decodeChunks [chunks.flatten])).1 =
      (Lines.cut (some 0x0A) (Utf8.marked chunks)).1.map
        fun m => Utf8.fromUtf8Lossy m.reduceOption := by
  have hone : Utf8.decodeChunks [chunks.flatten] = Utf8.fromUtf8Lossy chunks.flatten :=
    List.append_nil _
  rw [hone, ← newline_eq, Utf8.cut_fromUtf8Lossy (by decide), ← Utf8.reduceOption_marked,
    Utf8.cut_reduceOption, List.map_map]
  rfl

/-- The chunks make the calls of the stream in one piece exactly if they leave the characters of
shown lines whole. -/
theorem sseCalls_flatten_iff (status : Text) (chunks : List Bytes) :
    sseCalls status chunks = sseCalls status [chunks.flatten] ↔ LeavesWhole chunks := by
  have hx : ∀ m ∈ (Lines.cut (some 0x0A) (Utf8.marked chunks)).1,
      Blurred (Utf8.fromUtf8Lossy m.reduceOption) (Utf8.decodeMarked m) ∧
        '\n' ∉ Utf8.fromUtf8Lossy m.reduceOption := by
    intro m hm
    constructor
    · exact Utf8.blurred_decodeMarked m
    · rw [← Utf8.decodeMarked_map_some, ← newline_eq]
      apply Utf8.notMem_decodeMarked (by decide)
      intro hmem
      apply Lines.notMem_line hm
      simpa [List.reduceOption_mem_iff] using hmem
  have hiff := SseFields.takeAll_eq_iff (d := false) hx SseFields.level_new rfl
  rw [sseCalls_eq, sseCalls_eq, lines_decodeChunks, lines_decode_flatten, List.map_map,
    List.map_map, eq_comm]
  refine hiff.trans ?_
  simp only [Utf8.decodeMarked_eq_iff]
  constructor
  · exact fun h => h.2.2
  · exact fun h => ⟨fun _ => trivial, fun _ => trivial, h⟩

theorem leavesWhole_singleton (bs : Bytes) : LeavesWhole [bs] := by
  rw [← sseCalls_flatten_iff [], List.flatten_singleton]

theorem shownLines_flatten (chunks : List Bytes) : shownLines chunks.flatten =
    (SseLine.shown (fun m : Marked => .of (Utf8.fromUtf8Lossy m.reduceOption)) false
      (Lines.cut (some 0x0A) (Utf8.marked chunks)).1).map List.reduceOption := by
  rw [SseLine.map_shown (k := fun l => .of (Utf8.fromUtf8Lossy l)), ← Utf8.cut_reduceOption,
    Utf8.reduceOption_marked, shownLines]

/-- However it is cut, a stream whose shown lines have characters of one byte only keeps them. -/
theorem leavesWhole_of_narrow (h : ∀ l ∈ shownLines chunks.flatten, Narrow l) :
    LeavesWhole chunks := by
  rw [shownLines_flatten, List.forall_mem_map] at h
  exact fun m hm => (h m hm).whole

theorem flatten_map_singleton (bs : Bytes) : (bs.map ([·])).flatten = bs := by
  rw [← List.flatMap_def, List.flatMap_singleton']

/-- Cut everywhere, it keeps no other characters. -/
theorem narrow_of_leavesWhole (h : LeavesWhole (bs.map ([·]))) : ∀ l ∈ shownLines bs, Narrow l := by
  rw [← flatten_map_singleton bs, shownLines_flatten, List.forall_mem_map]
  intro m hm
  obtain ⟨u, v, hsplit⟩ := Lines.mem_cut ((SseLine.shown_sublist _ _).subset hm)
  have hshredded : Utf8.Shredded m := by
    apply Utf8.Shredded.of_append (u := u) (v := v)
    rw [← hsplit]
    exact Utf8.shredded_marked bs
  exact hshredded.narrow_of_whole (h m hm)

/-- An event whose data are one character of two bytes, cut after the first of them. -/
theorem sseCalls_cut_inside : ∃ chunks chunks' : List Bytes, chunks.flatten = chunks'.flatten ∧
    chunks.flatten = Utf8.encode "data: é\n\n".toList ∧
    sseCalls "200 OK".toList chunks ≠ sseCalls "200 OK".toList chunks' := by
  refine ⟨[Utf8.encode "data: ".toList ++ [0xC3], [0xA9, 0x0A, 0x0A]],
    [Utf8.encode "data: é\n\n".toList], by decide +kernel, by decide +kernel, ?_⟩
  simp only [sseCalls, connectSse_calls]
  decide +kernel

/-- Two ways to cut a stream make the same calls if both leave the characters of shown lines whole,
and different ones if only one does. All ways make the same calls exactly if no character of a shown
line takes more than one byte. -/
theorem sseCalls_cuts_iff (status : Text) (bs : Bytes) :
    (∀ chunks chunks', chunks.flatten = bs → chunks'.flatten = bs → LeavesWhole chunks' →
      (sseCalls status chunks = sseCalls status chunks' ↔ LeavesWhole chunks)) ∧
    ((∀ chunks chunks', chunks.flatten = bs → chunks'.flatten = bs →
      sseCalls status chunks = sseCalls status chunks') ↔ ∀ l ∈ shownLines bs, Narrow l) := by
  constructor
  · rintro chunks chunks' rfl heq hwhole
    have hwhole' := (sseCalls_flatten_iff status chunks').mpr hwhole
    rw [heq] at hwhole'
    rw [hwhole', sseCalls_flatten_iff]
  · constructor
    · intro h
      apply narrow_of_leavesWhole
      rw [← sseCalls_flatten_iff status, flatten_map_singleton]
      exact h _ _ (flatten_map_singleton bs) (List.flatten_singleton)
    · rintro h chunks chunks' rfl heq
      rw [(sseCalls_flatten_iff status chunks).mpr (leavesWhole_of_narrow h),
        (sseCalls_flatten_iff status chunks').mpr (leavesWhole_of_narrow (heq ▸ h)), heq]

/-- A cut behind the character keeps it, and a cut inside does not. -/
theorem sseCalls_cuts_iff_eAcute :
    LeavesWhole [Utf8.encode "data: é".toList, Utf8.encode "\n\n".toList] ∧
      ¬ LeavesWhole [Utf8.encode "data: ".toList ++ [0xC3], [0xA9, 0x0A, 0x0A]] := by
  have hiff := (sseCalls_cuts_iff "200 OK".toList (Utf8.encode "data: é\n\n".toList)).1
  have hone := leavesWhole_singleton (Utf8.encode "data: é\n\n".toList)
  constructor
  · apply (hiff _ _ (by decide +kernel) List.flatten_singleton hone).mp
    simp only [sseCalls, connectSse_calls]
    decide +kernel
  · rw [← hiff _ _ (by decide +kernel) List.flatten_singleton hone]
    simp only [sseCalls, connectSse_calls]
    decide +kernel

end Cuts

end NotifiTransport

import NotifiTransport.Http.Sse

/-! # What comes back of sent events

axum writes an event as a line for the type, one line for each line of the data and a blank line.
`connect_sse` trims what it reads after the colon and decodes chunk by chunk, so events come back as
they were sent exactly if no field has white space at its ends and no character is cut.
-/

namespace NotifiTransport

open Utf8 (Blurred AtBoundaries)

/-- Neither the first nor the last character is white space. -/
def Trimmed (t : Text) : Prop :=
  (∀ c ∈ t.head?, isWhitespace c = false) ∧ ∀ c ∈ t.getLast?, isWhitespace c = false

/-- What is given to `SseEmitter::send`; axum accepts no line break in the type and no carriage
return in the data. -/
structure SseEvent where
  eventType : Text
  data : Text
  newline_notMem : '\n' ∉ eventType
  return_notMem : '\r' ∉ eventType
  data_return_notMem : '\r' ∉ data

namespace SseEvent

/-- The lines of an event as axum is assumed to write them. For empty data axum 0.8.9 writes no data
line. -/
def lines (e : SseEvent) : List Text :=
  ("event: ".toList ++ e.eventType) :: (e.data.splitOn '\n').map ("data: ".toList ++ ·) ++ [[]]

def call (e : SseEvent) : SseCall := (e.eventType, e.data)

def Trimmed (e : SseEvent) : Prop :=
  NotifiTransport.Trimmed e.eventType ∧ ∀ l ∈ e.data.splitOn '\n', NotifiTransport.Trimmed l

end SseEvent

/-- What the response carries: events, and keep-alive comments with blank lines after them. -/
inductive SseItem where
  | event (e : SseEvent)
  | keepAlive (blanks : ℕ)

namespace SseItem

def lines : SseItem → List Text
  | event e => e.lines
  | keepAlive blanks => ": keep-alive".toList :: List.replicate blanks []

def events : SseItem → List SseEvent
  | event e => [e]
  | keepAlive _ => []

/-- The text of the response. -/
def stream (items : List SseItem) : Text := Lines.unlines '\n' (items.flatMap lines)

end SseItem

variable {t t' v : Text} {f : SseFields} {ls ls' ms : List Text} {e : SseEvent}
  {items : List SseItem} {chunks : List Bytes}

section Blurring

theorem trim_eq_self_iff : trim t = t ↔ Trimmed t := Trim.trimBy_eq_self_iff

instance (t : Text) : Decidable (Trimmed t) := decidable_of_iff _ trim_eq_self_iff

instance (e : SseEvent) : Decidable e.Trimmed := inferInstanceAs (Decidable (_ ∧ _))

theorem ascii_of_all (h : t.all (fun c => c.toNat < 128) = true) : ∀ c ∈ t, c.toNat < 128 := by
  simpa using h

/-- A text with replaced characters has too many that are not white space. -/
theorem trim_eq_iff_of_blurred (h : Blurred t t') : trim t' = t ↔ t' = t ∧ Trimmed t := by
  constructor
  · intro htrim
    rcases h.eq_or_countP_lt (q := (!isWhitespace ·)) (by decide) with rfl | hlt
    · exact ⟨rfl, trim_eq_self_iff.mp htrim⟩
    · have hcount := Trim.countP_trimBy isWhitespace t'
      rw [← trim_eq_trimBy, htrim] at hcount
      omega
  · rintro ⟨rfl, ht⟩
    exact trim_eq_self_iff.mpr ht

theorem map_trim_eq_iff_of_blurred (h : List.Forall₂ Blurred ls ls') :
    ls'.map trim = ls ↔ ls' = ls ∧ ∀ l ∈ ls, Trimmed l := by
  induction h with
  | nil => simp
  | cons hl _ ih =>
    rw [List.map_cons, List.cons.injEq, trim_eq_iff_of_blurred hl, ih, List.cons.injEq,
      List.forall_mem_cons]
    tauto

theorem notMem_of_blurred {c : Char} (hc : c ≠ Utf8.replacement)
    (h : List.Forall₂ Blurred ls ls') (hls : ∀ l ∈ ls, c ∉ l) : ∀ l ∈ ls', c ∉ l := by
  induction h with
  | nil => exact hls
  | cons hl _ ih =>
    obtain ⟨hhead, htail⟩ := List.forall_mem_cons.mp hls
    exact List.forall_mem_cons.mpr ⟨hl.notMem hc hhead, ih htail⟩

/-- Line breaks stay where they are. -/
theorem blurred_unlines {d : Text} (h : Blurred (Lines.unlines '\n' ls) d) :
    ∃ ls', d = Lines.unlines '\n' ls' ∧ List.Forall₂ Blurred ls ls' := by
  induction ls generalizing d with
  | nil =>
    cases h
    exact ⟨[], rfl, .nil⟩
  | cons l ls ih =>
    have hsplit : Lines.unlines '\n' (l :: ls) = l ++ (['\n'] ++ Lines.unlines '\n' ls) := by
      simp [Lines.unlines]
    rw [hsplit] at h
    obtain ⟨l', d₁, rfl, hl, h₁⟩ := h.append
    obtain ⟨d₂, rfl, h₂⟩ := h₁.append_ascii (ascii_of_all rfl)
    obtain ⟨ls', rfl, hls⟩ := ih h₂
    exact ⟨l' :: ls', by simp [Lines.unlines], .cons hl hls⟩

theorem blurred_append (h : List.Forall₂ Blurred (ls ++ ms) ls') :
    ∃ l₁ l₂, ls' = l₁ ++ l₂ ∧ List.Forall₂ Blurred ls l₁ ∧ List.Forall₂ Blurred ms l₂ := by
  induction ls generalizing ls' with
  | nil => exact ⟨[], ls', rfl, .nil, h⟩
  | cons l ls ih =>
    cases h with
    | cons hl h =>
      obtain ⟨l₁, l₂, rfl, h₁, h₂⟩ := ih h
      exact ⟨_ :: l₁, l₂, rfl, .cons hl h₁, h₂⟩

theorem blurred_map_prefix {pre : Text} (hpre : ∀ c ∈ pre, c.toNat < 128)
    (h : List.Forall₂ Blurred (ls.map (pre ++ ·)) ms) :
    ∃ ls', ms = ls'.map (pre ++ ·) ∧ List.Forall₂ Blurred ls ls' := by
  induction ls generalizing ms with
  | nil =>
    cases h
    exact ⟨[], rfl, .nil⟩
  | cons l ls ih =>
    cases h with
    | cons hl h =>
      obtain ⟨l', rfl, hl'⟩ := hl.append_ascii hpre
      obtain ⟨ls', rfl, hls⟩ := ih h
      exact ⟨l' :: ls', rfl, .cons hl' hls⟩

theorem blurred_eq_of_ascii (h : List.Forall₂ Blurred ls ls')
    (hls : ∀ l ∈ ls, ∀ c ∈ l, c.toNat < 128) : ls' = ls := by
  induction h with
  | nil => rfl
  | cons hl _ ih =>
    obtain ⟨hhead, htail⟩ := List.forall_mem_cons.mp hls
    rw [hl.eq_of_ascii hhead, ih htail]

end Blurring

namespace SseFields

theorem trim_space_cons (v : Text) : trim (' ' :: v) = trim v := by
  have hspace : ∀ c ∈ [' '], isWhitespace c = true := List.forall_mem_singleton.mpr rfl
  exact Trim.trimBy_append_left hspace

theorem onLine_event (f : SseFields) (v : Text) :
    f.onLine ("event: ".toList ++ v) = ({ f with eventType := trim v }, []) := by
  have hstrip : stripPrefix "event:".toList ("event: ".toList ++ v) = some (' ' :: v) := by
    rw [stripPrefix, if_pos ⟨' ' :: v, rfl⟩]
    rfl
  have hne : "event: ".toList ++ v ≠ [] := List.cons_ne_nil _ _
  rw [onLine, if_neg hne, hstrip]
  dsimp only
  rw [trim_space_cons]

theorem onLine_data (f : SseFields) (v : Text) :
    f.onLine ("data: ".toList ++ v) =
      ({ f with dataLines := f.dataLines ++ [trim v] }, []) := by
  have hevent : stripPrefix "event:".toList ("data: ".toList ++ v) = none := by
    rw [stripPrefix, if_neg]
    rintro ⟨u, hu⟩
    exact absurd (List.cons.inj hu).1 (by decide)
  have hstrip : stripPrefix "data:".toList ("data: ".toList ++ v) = some (' ' :: v) := by
    rw [stripPrefix, if_pos ⟨' ' :: v, rfl⟩]
    rfl
  have hne : "data: ".toList ++ v ≠ [] := List.cons_ne_nil _ _
  rw [onLine, if_neg hne, hevent, hstrip]
  dsimp only
  rw [trim_space_cons]

theorem onLines_data (h : ∀ l ∈ ls, '\r' ∉ l) :
    f.onLines (ls.map ("data: ".toList ++ ·)) =
      ({ f with dataLines := f.dataLines ++ ls.map trim }, []) := by
  induction ls generalizing f with
  | nil => simp [onLines]
  | cons l ls ih =>
    obtain ⟨hl, hls⟩ := List.forall_mem_cons.mp h
    have hr : '\r' ∉ "data: ".toList ++ l := List.not_mem_append (by decide) hl
    rw [List.map_cons, onLines, trimEndMatches_of_notMem hr, onLine_data, ih hls]
    simp

/-- The lines of an event make one call, with trimmed fields. -/
theorem onLines_event (hf : f.dataLines = []) (hv : '\r' ∉ v) (hls : ∀ l ∈ ls, '\r' ∉ l)
    (hne : ls ≠ []) :
    f.onLines (("event: ".toList ++ v) :: ls.map ("data: ".toList ++ ·) ++ [[]]) =
      (new, [(trim v, joinLines (ls.map trim))]) := by
  have hr : '\r' ∉ "event: ".toList ++ v := List.not_mem_append (by decide) hv
  have hlines : ls.map trim ≠ [] := by simpa using hne
  rw [List.cons_append, onLines, trimEndMatches_of_notMem hr, onLine_event]
  dsimp only
  rw [onLines_append, onLines_data hls]
  change _ = ((⟨"message".toList, []⟩ : SseFields), _)
  simp [onLines, onLine, trimEndMatches, hf, hlines]

/-- A comment with blank lines after it does nothing between events. -/
theorem onLines_keepAlive (hf : f.dataLines = []) (blanks : ℕ) :
    f.onLines (SseItem.keepAlive blanks).lines = (f, []) := by
  have hblank : f.onLines (List.replicate blanks []) = (f, []) := by
    induction blanks with
    | zero => rfl
    | succ n ih => simp [List.replicate_succ, onLines, onLine, trimEndMatches, hf, ih]
  have hcomment : f.onLine (trimEndMatches '\r' ": keep-alive".toList) = (f, []) := rfl
  rw [SseItem.lines, onLines, hcomment, hblank]
  rfl

end SseFields

namespace SseEvent

theorem newline_notMem_lines (e : SseEvent) : ∀ l ∈ e.lines, '\n' ∉ l := by
  intro l hl
  simp only [lines, List.cons_append, List.mem_cons, List.mem_append, List.mem_map] at hl
  rcases hl with rfl | ⟨l, hl, rfl⟩ | rfl | hl
  · exact List.not_mem_append (by decide) e.newline_notMem
  · exact List.not_mem_append (by decide) (Lines.notMem_splitOn _ _ l hl)
  · exact List.not_mem_nil
  · cases hl

/-- The fields of an event as they are decoded. -/
theorem exists_of_blurred (h : List.Forall₂ Blurred e.lines ls) :
    ∃ v ms, ls = ("event: ".toList ++ v) :: ms.map ("data: ".toList ++ ·) ++ [[]] ∧
      Blurred e.eventType v ∧ List.Forall₂ Blurred (e.data.splitOn '\n') ms := by
  rw [lines] at h
  obtain ⟨l₁, l₂, rfl, h₁, h₂⟩ := blurred_append h
  obtain rfl := blurred_eq_of_ascii h₂ (by simp)
  cases h₁ with
  | cons htype h₁ =>
    obtain ⟨v, rfl, hv⟩ := htype.append_ascii (ascii_of_all rfl)
    obtain ⟨ms, rfl, hms⟩ := blurred_map_prefix (ascii_of_all rfl) h₁
    exact ⟨v, ms, rfl, hv, hms⟩

theorem eq_lines_iff : ("event: ".toList ++ v) :: ms.map ("data: ".toList ++ ·) ++ [[]] = e.lines ↔
    v = e.eventType ∧ ms = e.data.splitOn '\n' := by
  have hinj : Function.Injective fun l : Text => "data: ".toList ++ l :=
    List.append_right_injective _
  rw [lines, List.append_left_inj, List.cons.injEq, List.append_right_inj,
    (List.map_injective_iff.mpr hinj).eq_iff]

theorem ne_nil_of_blurred (h : List.Forall₂ Blurred (e.data.splitOn '\n') ms) : ms ≠ [] := by
  rintro rfl
  exact List.splitOn_ne_nil _ _ (List.forall₂_nil_right_iff.mp h)

/-- The call that is made for decoded fields is the event exactly if they are the fields of the
event and trimmed. -/
theorem call_eq_iff (hv : Blurred e.eventType v)
    (hms : List.Forall₂ Blurred (e.data.splitOn '\n') ms) :
    (trim v, joinLines (ms.map trim)) = e.call ↔
      (v = e.eventType ∧ ms = e.data.splitOn '\n') ∧ e.Trimmed := by
  have hbreaks : ∀ l ∈ ms.map trim, '\n' ∉ l := by
    rw [List.forall_mem_map]
    intro l hl hmem
    exact notMem_of_blurred (by decide) hms (Lines.notMem_splitOn _ _) l hl
      (Trim.mem_of_mem_trimBy hmem)
  have hne : ms.map trim ≠ [] := by simpa using ne_nil_of_blurred hms
  have hjoin : joinLines (ms.map trim) = e.data ↔ ms.map trim = e.data.splitOn '\n' := by
    constructor
    · intro h
      rw [← h, joinLines, List.splitOn_intercalate _ hbreaks hne]
    · intro h
      rw [h, joinLines, List.intercalate_splitOn]
  rw [call, Prod.mk.injEq, hjoin, trim_eq_iff_of_blurred hv, map_trim_eq_iff_of_blurred hms,
    Trimmed]
  tauto

end SseEvent

namespace SseItem

theorem newline_notMem_lines (item : SseItem) : ∀ l ∈ item.lines, '\n' ∉ l := by
  cases item with
  | event e => exact e.newline_notMem_lines
  | keepAlive blanks =>
    rw [lines, List.forall_mem_cons]
    constructor
    · decide
    · intro l hl
      rw [List.eq_of_mem_replicate hl]
      exact List.not_mem_nil

theorem ascii_keepAlive (blanks : ℕ) :
    ∀ l ∈ (keepAlive blanks).lines, ∀ c ∈ l, c.toNat < 128 := by
  rw [lines, List.forall_mem_cons]
  constructor
  · exact ascii_of_all rfl
  · intro l hl
    rw [List.eq_of_mem_replicate hl]
    exact List.forall_mem_nil _

end SseItem

/-- Decoded lines make the calls of the events exactly if they are the lines and the events are
trimmed. -/
theorem SseFields.onLines_eq_iff (hf : f.dataLines = [])
    (h : List.Forall₂ Blurred (items.flatMap SseItem.lines) ls) :
    (f.onLines ls).2 = (items.flatMap SseItem.events).map SseEvent.call ↔
      ls = items.flatMap SseItem.lines ∧ ∀ e ∈ items.flatMap SseItem.events, e.Trimmed := by
  induction items generalizing f ls with
  | nil =>
    cases h
    simp [onLines]
  | cons item items ih =>
    rw [List.flatMap_cons] at h
    obtain ⟨l₁, l₂, rfl, h₁, h₂⟩ := blurred_append h
    have hsame : l₁ ++ l₂ = item.lines ++ items.flatMap SseItem.lines ↔
        l₁ = item.lines ∧ l₂ = items.flatMap SseItem.lines := by
      constructor
      · intro happend
        exact List.append_inj happend h₁.length_eq.symm
      · rintro ⟨rfl, rfl⟩
        rfl
    rw [List.flatMap_cons, List.flatMap_cons, onLines_append, hsame]
    cases item with
    | event e =>
      obtain ⟨v, ms, rfl, hv, hms⟩ := e.exists_of_blurred h₁
      have hvr : '\r' ∉ v := hv.notMem (by decide) e.return_notMem
      have hmsr : ∀ l ∈ ms, '\r' ∉ l := notMem_of_blurred (by decide) hms fun l hl hr =>
        e.data_return_notMem (Lines.mem_of_mem_splitOn hl hr)
      rw [onLines_event hf hvr hmsr (SseEvent.ne_nil_of_blurred hms)]
      dsimp only
      rw [SseItem.events, List.singleton_append, List.singleton_append, List.map_cons,
        List.cons.injEq, SseEvent.call_eq_iff hv hms, ih rfl h₂, SseItem.lines,
        SseEvent.eq_lines_iff, List.forall_mem_cons]
      tauto
    | keepAlive blanks =>
      obtain rfl := blurred_eq_of_ascii h₁ (SseItem.ascii_keepAlive blanks)
      rw [onLines_keepAlive hf]
      dsimp only
      rw [List.nil_append, SseItem.events, List.nil_append, ih hf h₂]
      simp

/-- Indented data. -/
def SseEvent.indented : SseEvent :=
  ⟨"note".toList, "if x:\n  y".toList, by decide, by decide, by decide⟩

/-- The indentation of the second line is lost, though the stream arrives in one piece. -/
theorem connectSse_indented :
    ∃ chunks : List Bytes, chunks.flatten = Utf8.encode (SseItem.stream [.event .indented]) ∧
      (connectSse (.ok ⟨"200 OK".toList, true, chunks.map .ok⟩)).1 ≠ [SseEvent.indented.call] := by
  refine ⟨[Utf8.encode (SseItem.stream [.event .indented])], List.append_nil _, ?_⟩
  rw [connectSse_calls]
  decide +kernel

/-- The handler gets the events that were sent exactly if no event type and no line of data begins
or ends with white space and no chunk ends inside a character. -/
theorem connectSse_events_iff (status : Text)
    (h : chunks.flatten = Utf8.encode (SseItem.stream items)) :
    (connectSse (.ok ⟨status, true, chunks.map .ok⟩)).1 =
        (items.flatMap SseItem.events).map SseEvent.call ↔
      (∀ e ∈ items.flatMap SseItem.events, e.Trimmed) ∧ AtBoundaries chunks := by
  obtain ⟨hblur, -⟩ := Utf8.decodeChunks_blurred h
  obtain ⟨ls, hdecode, hls⟩ := blurred_unlines hblur
  have hsent : ∀ l ∈ items.flatMap SseItem.lines, '\n' ∉ l := by
    intro l hl
    obtain ⟨item, -, hl⟩ := List.mem_flatMap.mp hl
    exact item.newline_notMem_lines l hl
  have hread : ∀ l ∈ ls, '\n' ∉ l := notMem_of_blurred (by decide) hls hsent
  have hsame : ls = items.flatMap SseItem.lines ↔
      Utf8.decodeChunks chunks = SseItem.stream items := by
    rw [hdecode, SseItem.stream]
    constructor
    · rintro rfl
      rfl
    · intro heq
      have hcut := congrArg (fun t => (Lines.cut '\n' t).1) heq
      simpa only [Lines.cut_unlines hread, Lines.cut_unlines hsent] using hcut
  rw [connectSse_calls, hdecode, Lines.cut_unlines hread, SseFields.onLines_eq_iff rfl hls, hsame,
    Utf8.decodeChunks_eq_iff h]
  exact and_comm

/-- Data of two lines, a keep-alive and a chunk that ends inside a line. -/
theorem connectSse_events_iff_sample :
    let e : SseEvent := ⟨"note".toList, "é\nx y".toList, by decide, by decide, by decide⟩
    (connectSse (.ok ⟨"200 OK".toList, true, [.ok (Utf8.encode "event: note\ndata: é".toList),
      .ok (Utf8.encode "\ndata: x y\n\n: keep-alive\n\n".toList)]⟩)).1 = [e.call] := by
  intro e
  have hsent : [Utf8.encode "event: note\ndata: é".toList,
      Utf8.encode "\ndata: x y\n\n: keep-alive\n\n".toList].flatten =
        Utf8.encode (SseItem.stream [.event e, .keepAlive 1]) := by decide +kernel
  apply (connectSse_events_iff "200 OK".toList hsent).mpr
  constructor
  · exact List.forall_mem_singleton.mpr (by decide)
  · exact .cons _ (.cons _ (List.forall_mem_nil _))

end NotifiTransport

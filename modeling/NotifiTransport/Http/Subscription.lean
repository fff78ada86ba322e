import NotifiTransport.Http.Transport

/-! # A subscription over its connections

`sse_loop` connects again whenever a connection has ended. A connection brings the beginning of the
text that the server writes on it, and may break off in the middle of an event. The handler is
called for the events whose text has come as a whole, in their order; what has come of the next one
is dropped with the connection. The writer of the text is axum's and a parameter here.
-/

namespace Lines

variable {α : Type*} [DecidableEq α] {a : α} {l m : List α} {ls : List (List α)}

theorem cut_le (h : l <+: m) : (cut a l).1 <+: (cut a m).1 := by
  obtain ⟨rest, rfl⟩ := h
  rw [cut_append]
  exact List.prefix_append _ _

/-- A text that breaks off has not come to the end of its last line. -/
theorem cut_of_unfinished (hls : ∀ x ∈ ls, a ∉ x) (h : l <+: unlines a ls)
    (hn : ¬ unlines a ls <+: l) : (cut a l).1 <+: ls.dropLast := by
  induction ls using List.reverseRecOn with
  | nil => exact absurd List.nil_prefix hn
  | append_singleton ls x _ =>
    rw [List.dropLast_concat]
    have hx : a ∉ x := hls x (by simp)
    have hcut : cut a (unlines a ls ++ x) = (ls, x) := by
      rw [cut_append, cut_unlines fun y hy => hls y (List.mem_append_left _ hy), List.nil_append,
        cut_of_notMem hx, List.append_nil]
    have hlast : unlines a (ls ++ [x]) = unlines a ls ++ x ++ [a] := by
      simp [unlines]
    rw [hlast] at h hn
    rcases List.prefix_concat_iff.mp h with rfl | hle
    · exact absurd (List.prefix_refl _) hn
    · have hcle := cut_le (a := a) hle
      rwa [hcut] at hcle

end Lines

namespace NotifiTransport

open Utf8 (AtBoundaries)

/-- What axum writes for an event whose data is not empty, and for a keep-alive. -/
structure AxumWrites (axum : SseItem → Text) : Prop where
  event : ∀ e : SseEvent, e.data ≠ [] → axum (.event e) = Lines.unlines '\n' e.lines
  keepAlive : ∀ blanks, axum (.keepAlive blanks) =
    Lines.unlines '\n' (SseItem.keepAlive blanks).lines

namespace SseItem

/-- The first of the items, whose text has come as a whole. -/
def arrived (axum : SseItem → Text) (text : Text) : List SseItem → List SseItem
  | [] => []
  | item :: items =>
    if axum item <+: text then item :: arrived axum (text.drop (axum item).length) items else []

/-- An event of this item has data. -/
def HasData (item : SseItem) : Prop := ∀ e ∈ item.events, e.data ≠ []

end SseItem

theorem AxumWrites.item {axum : SseItem → Text} (ha : AxumWrites axum) {item : SseItem}
    (h : item.HasData) : axum item = Lines.unlines '\n' item.lines := by
  cases item with
  | event e => exact ha.event e (h e List.mem_cons_self)
  | keepAlive blanks => exact ha.keepAlive blanks

/-- What `connect_sse` gives to its handler for an event. -/
def SseEvent.shown (e : SseEvent) : SseCall := (trim e.eventType, e.received)

variable {axum : SseItem → Text} {text : Text} {item : SseItem} {items : List SseItem}
  {f : SseFields} {ls ms : List Text}

namespace SseFields

theorem onLines_le (h : ls <+: ms) : (f.onLines ls).2 <+: (f.onLines ms).2 := by
  obtain ⟨rest, rfl⟩ := h
  rw [onLines_append]
  exact List.prefix_append _ _

/-- The lines of an item make its calls, and leave nothing behind. -/
theorem onLines_item (item : SseItem) :
    new.onLines item.lines = (new, item.events.map SseEvent.shown) := by
  cases item with
  | event e =>
    have hdata : ∀ l ∈ e.data.splitOn '\n', '\r' ∉ l := fun l hl hr =>
      e.data_return_notMem (Lines.mem_of_mem_splitOn hl hr)
    exact onLines_event rfl e.return_notMem hdata (List.splitOn_ne_nil _ _)
  | keepAlive blanks => exact onLines_keepAlive rfl blanks

/-- Before its last line an item makes no call. -/
theorem onLines_unfinished (h : ls <+: item.lines.dropLast) : (new.onLines ls).2 = [] := by
  have hnone : (new.onLines item.lines.dropLast).2 = [] := by
    cases item with
    | event e =>
      have hr : '\r' ∉ "event: ".toList ++ e.eventType :=
        List.not_mem_append (by decide) e.return_notMem
      have hdata : ∀ l ∈ e.data.splitOn '\n', '\r' ∉ l := fun l hl hr =>
        e.data_return_notMem (Lines.mem_of_mem_splitOn hl hr)
      rw [SseItem.lines, SseEvent.lines, List.dropLast_concat, onLines,
        trimEndMatches_of_notMem hr, onLine_event, onLines_data hdata]
      rfl
    | keepAlive blanks =>
      have hle := onLines_le (f := new) (List.dropLast_prefix (SseItem.keepAlive blanks).lines)
      rw [onLines_item] at hle
      exact List.prefix_nil.mp hle
  have hle := onLines_le (f := new) h
  rw [hnone] at hle
  exact List.prefix_nil.mp hle

/-- A text that breaks off makes the calls of the items that have come as a whole. -/
theorem onLines_arrived (ha : AxumWrites axum) (hdata : ∀ item ∈ items, item.HasData)
    (h : text <+: items.flatMap axum) :
    (new.onLines (Lines.cut '\n' text).1).2 =
      ((SseItem.arrived axum text items).flatMap SseItem.events).map SseEvent.shown := by
  induction items generalizing text with
  | nil =>
    obtain rfl := List.prefix_nil.mp h
    rfl
  | cons item items ih =>
    obtain ⟨hone, hmore⟩ := List.forall_mem_cons.mp hdata
    have hitem := ha.item hone
    rw [SseItem.arrived]
    split
    · next hwhole =>
      obtain ⟨rest, rfl⟩ := hwhole
      rw [List.flatMap_cons, List.prefix_append_right_inj] at h
      rw [List.drop_left, hitem, Lines.cut_append, Lines.cut_unlines item.newline_notMem_lines,
        List.nil_append, onLines_append, onLines_item, ih hmore h]
      simp
    · next hbroken =>
      have hle : text <+: axum item :=
        (List.prefix_or_prefix_of_prefix h (List.prefix_append _ _)).resolve_right hbroken
      rw [hitem] at hle hbroken
      exact onLines_unfinished (Lines.cut_of_unfinished item.newline_notMem_lines hle hbroken)

end SseFields

namespace SseParser

/-- The calls that a connection has made after these chunks. -/
def made (chunks : List Bytes) : List SseCall :=
  (SseFields.new.onLines (Lines.cut '\n' (Utf8.decodeChunks chunks)).1).2

/-- The parser after these chunks. -/
def after (chunks : List Bytes) : SseParser :=
  ⟨(SseFields.new.onLines (Lines.cut '\n' (Utf8.decodeChunks chunks)).1).1,
    (Lines.cut '\n' (Utf8.decodeChunks chunks)).2⟩

theorem feed_after (chunks : List Bytes) (c : Bytes) :
    ((after chunks).feed c).1 = after (chunks ++ [c]) ∧
      made (chunks ++ [c]) = made chunks ++ ((after chunks).feed c).2 := by
  have hdecode : Utf8.decodeChunks (chunks ++ [c]) =
      Utf8.decodeChunks chunks ++ Utf8.fromUtf8Lossy c := by
    simp [Utf8.decodeChunks]
  have hcut := Lines.cut_append '\n' (Utf8.decodeChunks chunks) (Utf8.fromUtf8Lossy c)
  rw [feed, drain_eq le_rfl, after, after, made, made, hdecode, hcut, SseFields.onLines_append]
  exact ⟨rfl, rfl⟩

end SseParser

namespace SseTask

variable {Url H : Type} {t t' : SseTask Url H} {x : SseInput} {is : List SseInput}
  {o tr : List (H × Bytes)}

/-- The bodies of the connections so far, each with its chunks, after one more input. -/
def extend (bodies : List (List Bytes)) : SseInput → List (List Bytes)
  | .response (.ok true) => bodies ++ [[]]
  | .chunk (some (.ok bytes)) => bodies.dropLast ++ [bodies.getLast?.getD [] ++ [bytes]]
  | _ => bodies

/-- What has come on each connection. -/
def bodies (is : List SseInput) : List (List Bytes) := is.foldl extend []

theorem bodies_concat (is : List SseInput) (x : SseInput) :
    bodies (is ++ [x]) = extend (bodies is) x := by
  rw [bodies, List.foldl_append]
  rfl

@[simp] theorem handle_append (t : SseTask Url H) (calls calls' : List SseCall) :
    t.handle (calls ++ calls') = t.handle calls ++ t.handle calls' :=
  List.map_append

/-- The task has made the calls of these bodies, and reads the last of them. -/
structure Reads (t₀ : SseTask Url H) (bs : List (List Bytes)) (tr : List (H × Bytes))
    (t : SseTask Url H) : Prop where
  captured : t.captured = t₀.captured
  calls : tr = t₀.handle (bs.flatMap SseParser.made)
  reading : ∀ p, t.phase = .reading p → ∃ old chunks, bs = old ++ [chunks] ∧ p = .after chunks

theorem handle_of_captured (h : t'.captured = t.captured) (calls : List SseCall) :
    t'.handle calls = t.handle calls := by
  rw [handle, handle, (Prod.mk.inj h).2]

theorem Reads.step {t₀ : SseTask Url H} {bs : List (List Bytes)} (h : Reads t₀ bs tr t)
    (hs : t.step x = some (t', o)) : Reads t₀ (extend bs x) (tr ++ o) t' := by
  obtain ⟨hcap, rfl, hread⟩ := h
  have hcap' : t'.captured = t₀.captured := (captured_step hs).trans hcap
  unfold SseTask.step at hs
  split at hs <;> cases hs
  · -- a new connection
    refine ⟨hcap', ?_, ?_⟩
    · simp [extend, SseParser.made, Utf8.decodeChunks, Lines.cut, SseFields.onLines]
    · rintro _ ⟨⟩
      exact ⟨bs, [], rfl, rfl⟩
  · next r hr hp =>
    have hsame : extend bs (.response r) = bs := by
      rcases r with _ | _ | _
      · rfl
      · rfl
      · exact absurd rfl hr
    rw [hsame]
    exact ⟨hcap', List.append_nil _, by rintro _ ⟨⟩⟩
  · next p bytes hp =>
    obtain ⟨old, chunks, rfl, rfl⟩ := hread p hp
    obtain ⟨hnext, hmade⟩ := SseParser.feed_after chunks bytes
    have hlast : extend (old ++ [chunks]) (.chunk (some (.ok bytes))) =
        old ++ [chunks ++ [bytes]] := by
      simp [extend]
    rw [hlast]
    refine ⟨hcap', ?_, ?_⟩
    · rw [handle_of_captured hcap, ← handle_append]
      simp [hmade]
    · rintro _ ⟨⟩
      exact ⟨old, _, rfl, hnext⟩
  · next p c hc hp =>
    have hsame : extend bs (.chunk c) = bs := by
      rcases c with _ | _ | bytes
      · rfl
      · rfl
      · exact absurd rfl (hc bytes)
    rw [hsame]
    exact ⟨hcap', List.append_nil _, by rintro _ ⟨⟩⟩
  · exact ⟨hcap', List.append_nil _, by rintro _ ⟨⟩⟩

/-- In every run the handler is called for what each connection has brought. -/
theorem run_reads (ht : t.phase = .connecting) (h : machine.run t is = some (t', tr)) :
    Reads t (bodies is) tr t' := by
  refine Mealy.run_induction (P := fun is tr t' => Reads t (bodies is) tr t') ?_ ?_ h
  · refine ⟨rfl, rfl, ?_⟩
    intro p hp
    rw [ht] at hp
    cases hp
  · rintro is tr m x t' o - hm hs
    rw [bodies_concat]
    exact hm.step hs

/-- The connection has brought the beginning of the text of these items, cut between characters. -/
def Brings (axum : SseItem → Text) (chunks : List Bytes) (items : List SseItem) : Prop :=
  AtBoundaries chunks ∧ ∃ text, chunks.flatten = Utf8.encode text ∧ text <+: items.flatMap axum

/-- The events that come as a whole on the connections. -/
def arrivals (axum : SseItem → Text) (bodies : List (List Bytes)) (served : List (List SseItem)) :
    List SseEvent :=
  (List.zipWith (fun chunks items => (SseItem.arrived axum (Utf8.decodeChunks chunks) items).flatMap
    SseItem.events) bodies served).flatten

theorem made_of_brings {chunks : List Bytes} {items : List SseItem} (ha : AxumWrites axum)
    (hdata : ∀ item ∈ items, item.HasData) (h : Brings axum chunks items) :
    SseParser.made chunks = ((SseItem.arrived axum (Utf8.decodeChunks chunks) items).flatMap
      SseItem.events).map SseEvent.shown := by
  obtain ⟨hat, text, htext, hle⟩ := h
  rw [SseParser.made, hat.decodeChunks htext]
  exact SseFields.onLines_arrived ha hdata hle

theorem made_of_all_brings {bs : List (List Bytes)} {served : List (List SseItem)}
    (ha : AxumWrites axum) (hdata : ∀ items ∈ served, ∀ item ∈ items, item.HasData)
    (h : List.Forall₂ (Brings axum) bs served) :
    bs.flatMap SseParser.made = (arrivals axum bs served).map SseEvent.shown := by
  induction h with
  | nil => rfl
  | cons hone _ ih =>
    obtain ⟨hitems, hmore⟩ := List.forall_mem_cons.mp hdata
    rw [List.flatMap_cons, ih hmore, made_of_brings ha hitems hone, arrivals, arrivals,
      List.zipWith_cons_cons, List.flatten_cons, List.map_append]

/-- Over any number of connections, however they end, the handler is called once for each event
whose text has come as a whole on its connection, in the order in which they come, and for nothing
else. -/
theorem sse_loop_in_order {served : List (List SseItem)} (ha : AxumWrites axum)
    (hdata : ∀ items ∈ served, ∀ item ∈ items, item.HasData) (ht : t.phase = .connecting)
    (h : machine.run t is = some (t', tr)) (hs : List.Forall₂ (Brings axum) (bodies is) served) :
    tr = (arrivals axum (bodies is) served).map fun e => (t.handler, Utf8.encode e.received) := by
  rw [(run_reads ht h).calls, made_of_all_brings ha hdata hs, handle, List.map_map]
  rfl

section Sample

/-- What axum 0.8.9 puts in the response for a character of the data. -/
def axumChar (c : Char) : Text := if c = '\n' then "\ndata: ".toList else [c]

/-- axum 0.8.9 writes `data: ` before the first character of the data, if there is one, and after
each line break. -/
def axumEvent (e : SseEvent) : Text :=
  "event: ".toList ++ e.eventType ++ ['\n'] ++
    (if e.data = [] then [] else "data: ".toList ++ e.data.flatMap axumChar ++ ['\n']) ++ ['\n']

def axumText : SseItem → Text
  | .event e => axumEvent e
  | .keepAlive blanks => ": keep-alive".toList ++ '\n' :: List.replicate blanks '\n'

theorem flatMap_axumChar {l : Text} (h : '\n' ∉ l) : l.flatMap axumChar = l := by
  induction l with
  | nil => rfl
  | cons c l ih =>
    obtain ⟨hc, hl⟩ := not_or.mp (List.mem_cons.not.mp h)
    rw [List.flatMap_cons, ih hl, axumChar, if_neg (Ne.symm hc)]
    rfl

/-- Each line of the data has its own `data: `. -/
theorem unlines_data (d : Text) : Lines.unlines '\n' ((d.splitOn '\n').map ("data: ".toList ++ ·)) =
    "data: ".toList ++ d.flatMap axumChar ++ ['\n'] := by
  refine Lines.line_induction '\n' d ?_ ?_
  · intro l hl
    rw [List.splitOn_eq_singleton hl, flatMap_axumChar hl]
    simp [Lines.unlines]
  · intro x l hx ih
    have hbreak : axumChar '\n' = '\n' :: "data: ".toList := rfl
    rw [List.splitOn_append_cons_self_of_not_mem hx, List.map_cons, Lines.unlines,
      List.flatMap_cons, ← Lines.unlines, ih, List.flatMap_append, List.flatMap_cons, flatMap_axumChar hx, hbreak]
    simp

theorem unlines_block (x : Text) (ls : List Text) : Lines.unlines '\n' (x :: ls ++ [[]]) =
    x ++ ['\n'] ++ Lines.unlines '\n' ls ++ ['\n'] := by
  simp [Lines.unlines]

theorem axumEvent_of_ne_nil {e : SseEvent} (he : e.data ≠ []) :
    axumEvent e = Lines.unlines '\n' e.lines := by
  unfold axumEvent
  rw [if_neg he]
  exact (congrArg (_ ++ · ++ _) (unlines_data e.data)).symm.trans (unlines_block _ _).symm

theorem axumText_keepAlive (blanks : ℕ) : axumText (.keepAlive blanks) =
    Lines.unlines '\n' (SseItem.keepAlive blanks).lines := by
  have hblank : Lines.unlines '\n' (List.replicate blanks ([] : Text)) =
      List.replicate blanks '\n' := by
    rw [Lines.unlines, List.flatMap_replicate]
    exact List.flatten_replicate_singleton
  rw [SseItem.lines, Lines.unlines, List.flatMap_cons, ← Lines.unlines, hblank, List.append_assoc]
  rfl

theorem axumWrites_axumText : AxumWrites axumText :=
  ⟨fun _ => axumEvent_of_ne_nil, axumText_keepAlive⟩

def statusEvent : SseEvent :=
  ⟨"status".toList, "online".toList, by decide, by decide, by decide⟩

def alarmEvent : SseEvent :=
  ⟨"alarm".toList, "door\nopen".toList, by decide, by decide, by decide⟩

/-- The first connection breaks off in the middle of the second event. -/
def brokenOff : Text := axumText (.event statusEvent) ++ "event: alarm\ndata: do".toList

def twoConnections : List SseInput :=
  [.response (.error "refused".toList), .slept, .response (.ok true),
    .chunk (some (.ok (Utf8.encode brokenOff))), .chunk (some (.error "reset".toList)), .slept,
    .response (.ok true), .chunk (some (.ok (Utf8.encode (axumText (.keepAlive 1))))),
    .chunk (some (.ok (Utf8.encode (axumText (.event alarmEvent))))), .chunk none]

theorem sse_loop_in_order_twoConnections : ∃ t',
    machine.run (⟨"http://a/events".toList, 7, .connecting⟩ : SseTask Text ℕ) twoConnections =
      some (t', [(7, Utf8.encode "online".toList), (7, Utf8.encode "door\nopen".toList)]) := by
  have hrun : (machine.run (⟨"http://a/events".toList, 7, .connecting⟩ : SseTask Text ℕ)
      twoConnections).isSome = true := by
    decide +kernel
  obtain ⟨⟨t', tr⟩, h⟩ := Option.isSome_iff_exists.mp hrun
  let first : List SseItem := [.event statusEvent, .event alarmEvent]
  let second : List SseItem := [.keepAlive 1, .event alarmEvent]
  have hfirst : Brings axumText [Utf8.encode brokenOff] first := by
    refine ⟨List.forall_mem_singleton.mpr ⟨_, rfl⟩, brokenOff, List.flatten_singleton, ?_⟩
    exact ⟨"or\ndata: open\n\n".toList, by decide +kernel⟩
  have hsecond : Brings axumText [Utf8.encode (axumText (.keepAlive 1)),
      Utf8.encode (axumText (.event alarmEvent))] second := by
    refine ⟨?_, second.flatMap axumText, by decide +kernel, List.prefix_refl _⟩
    rintro _ (⟨⟩ | ⟨_, ⟨⟩ | ⟨_, ⟨⟩⟩⟩)
    · exact ⟨_, rfl⟩
    · exact ⟨_, rfl⟩
  have hs : List.Forall₂ (Brings axumText) (bodies twoConnections) [first, second] :=
    .cons hfirst (.cons hsecond .nil)
  have hdata : ∀ items ∈ [first, second], ∀ item ∈ items, item.HasData := by
    simp [first, second, SseItem.HasData, SseItem.events, statusEvent, alarmEvent]
  have hgot : (arrivals axumText (bodies twoConnections) [first, second]).map
      (fun e => (7, Utf8.encode e.received)) =
        [(7, Utf8.encode "online".toList), (7, Utf8.encode "door\nopen".toList)] := by
    decide +kernel
  have htr := sse_loop_in_order axumWrites_axumText hdata rfl h hs
  exact ⟨t', h.trans (congrArg (fun tr => some (t', tr)) (htr.trans hgot))⟩

end Sample

end SseTask

end NotifiTransport

import NotifiTransport.Client.Handshake
import NotifiTransport.Lib.Lines
import NotifiTransport.Lib.Utf8

/-! # Reading an SSE stream

`connect_sse` decodes every chunk of the response by itself, appends it to what is left of the last
line and takes complete lines off the front. A blank line calls the handler if there are data lines.
Only the complete lines of the decoded text matter.
-/

namespace NotifiTransport

/-- A call of the handler: the event type and the data. -/
abbrev SseCall := Text × Text

/-- `str::trim_end_matches` for one character. -/
def trimEndMatches (c : Char) (t : Text) : Text := (t.reverse.dropWhile (· == c)).reverse

/-- `data_lines.join("\n")`. -/
def joinLines (ls : List Text) : Text := ['\n'].intercalate ls

/-- The fields of the event that is being read. -/
structure SseFields where
  eventType : Text
  dataLines : List Text
  deriving DecidableEq

namespace SseFields

def new : SseFields := ⟨"message".toList, []⟩

/-- A line without its line break. -/
def onLine (f : SseFields) (line : Text) : SseFields × List SseCall :=
  if line = [] then
    -- a blank line dispatches the event, if there are data
    if f.dataLines = [] then (f, [])
    else (⟨"message".toList, []⟩, [(f.eventType, joinLines f.dataLines)])
  else
    match stripPrefix "event:".toList line with
    | some value => ({ f with eventType := trim value }, [])
    | none =>
      match stripPrefix "data:".toList line with
      | some value => ({ f with dataLines := f.dataLines ++ [trim value] }, [])
      | none => (f, [])

/-- Lines one after another; carriage returns at the end of a line are removed. -/
def onLines (f : SseFields) : List Text → SseFields × List SseCall
  | [] => (f, [])
  | line :: lines =>
    let r := f.onLine (trimEndMatches '\r' line)
    let s := r.1.onLines lines
    (s.1, r.2 ++ s.2)

end SseFields

/-- The local variables of `connect_sse`. -/
structure SseParser where
  fields : SseFields
  leftover : Text
  deriving DecidableEq

namespace SseParser

def new : SseParser := ⟨.new, []⟩

/-- `leftover.drain(..=newline_pos)` at the first line break, with what stays. -/
def takeLine (leftover : Text) : Option (Text × Text) :=
  if '\n' ∈ leftover then
    some (leftover.takeWhile (· != '\n') ++ ['\n'], (leftover.dropWhile (· != '\n')).tail)
  else none

/-- The loop over the complete lines, at most `n` of them. -/
def drain : ℕ → SseParser → SseParser × List SseCall
  | 0, p => (p, [])
  | n + 1, p =>
    match takeLine p.leftover with
    | none => (p, [])
    | some (line, leftover) =>
      let r := p.fields.onLine (trimEndMatches '\r' (trimEndMatches '\n' line))
      let s := drain n ⟨r.1, leftover⟩
      (s.1, r.2 ++ s.2)

/-- One chunk of the body. -/
def feed (p : SseParser) (chunk : Bytes) : SseParser × List SseCall :=
  let leftover := p.leftover ++ Utf8.fromUtf8Lossy chunk
  drain leftover.length ⟨p.fields, leftover⟩

/-- The body of the response, up to its end or its first error. -/
def read (p : SseParser) : List (Except Text Bytes) → List SseCall × Except TransportError Unit
  | [] => ([], .ok ())
  | .error e :: _ => ([], .error (.httpError e))
  | .ok chunk :: chunks =>
    let r := p.feed chunk
    let s := read r.1 chunks
    (r.2 ++ s.1, s.2)

end SseParser

/-- What the server answers to the GET: the status as it is displayed, and the body. -/
structure SseResponse where
  status : Text
  isSuccess : Bool
  chunks : List (Except Text Bytes)

/-- `connect_sse`, with the calls that it makes of the handler. -/
def connectSse : Except Text SseResponse → List SseCall × Except TransportError Unit
  | .error e => ([], .error (.httpError e))
  | .ok response =>
    if response.isSuccess then SseParser.new.read response.chunks
    else ([], .error (.httpError ("SSE endpoint returned HTTP ".toList ++ response.status)))

variable {c : Char} {t u : Text} {p : SseParser} {f : SseFields} {n : ℕ} {ls ms : List Text}

theorem trimEndMatches_append (c : Char) (t : Text) :
    trimEndMatches c (t ++ [c]) = trimEndMatches c t := by
  simp [trimEndMatches]

theorem trimEndMatches_of_notMem (h : c ∉ t) : trimEndMatches c t = t := by
  have hrev : t.reverse.dropWhile (· == c) = t.reverse := by
    cases hr : t.reverse with
    | nil => rfl
    | cons d s =>
      have hd : d ≠ c := by
        rintro rfl
        exact h (List.mem_reverse.mp (hr ▸ List.mem_cons_self))
      simp [hd]
  rw [trimEndMatches, hrev, List.reverse_reverse]

namespace SseParser

theorem takeLine_of_notMem (h : '\n' ∉ t) : takeLine t = none := if_neg h

theorem takeLine_append (h : '\n' ∉ t) : takeLine (t ++ '\n' :: u) = some (t ++ ['\n'], u) := by
  have hp : ∀ d ∈ t, (d != '\n') = true := by
    intro d hd
    rw [bne_iff_ne]
    rintro rfl
    exact h hd
  have hmem : '\n' ∈ t ++ '\n' :: u := by simp
  rw [takeLine, if_pos hmem, List.takeWhile_append_of_pos hp, List.dropWhile_append_of_pos hp]
  simp

/-- The loop handles the complete lines and keeps the rest. -/
theorem drain_eq (h : t.length ≤ n) : drain n ⟨f, t⟩ =
    (⟨(f.onLines (Lines.cut '\n' t).1).1, (Lines.cut '\n' t).2⟩,
      (f.onLines (Lines.cut '\n' t).1).2) := by
  induction n generalizing f t with
  | zero =>
    obtain rfl := List.eq_nil_of_length_eq_zero (Nat.le_zero.mp h)
    rfl
  | succ n ih =>
    rcases Lines.notMem_or_exists_line '\n' t with hmem | ⟨x, u, rfl, hx⟩
    · rw [drain, takeLine_of_notMem hmem, Lines.cut_of_notMem hmem]
      rfl
    · have hle : u.length ≤ n := by
        rw [List.length_append, List.length_cons] at h
        omega
      rw [drain, takeLine_append hx, Lines.cut_append_cons hx]
      simp only [trimEndMatches_append, trimEndMatches_of_notMem hx, ih hle, SseFields.onLines]

end SseParser

theorem SseFields.onLines_append : f.onLines (ls ++ ms) =
    (((f.onLines ls).1.onLines ms).1, (f.onLines ls).2 ++ ((f.onLines ls).1.onLines ms).2) := by
  induction ls generalizing f with
  | nil => rfl
  | cons l ls ih => simp [onLines, ih]

/-- Over a body that is read to its end, the calls are those of the complete lines of the decoded
chunks. -/
theorem SseParser.read_ok (h : '\n' ∉ p.leftover) (chunks : List Bytes) :
    p.read (chunks.map .ok) =
      ((p.fields.onLines (Lines.cut '\n' (p.leftover ++ Utf8.decodeChunks chunks)).1).2, .ok ()) := by
  induction chunks generalizing p with
  | nil =>
    rw [Utf8.decodeChunks, List.flatMap_nil, List.append_nil, Lines.cut_of_notMem h]
    rfl
  | cons chunk chunks ih =>
    have hrest := ih (p := (p.feed chunk).1) (by
      rw [feed, drain_eq le_rfl]
      exact Lines.notMem_cut _ _)
    rw [List.map_cons, read, hrest, feed, drain_eq le_rfl]
    dsimp only
    have hdecode : Utf8.decodeChunks (chunk :: chunks) =
        Utf8.fromUtf8Lossy chunk ++ Utf8.decodeChunks chunks := rfl
    rw [hdecode, ← List.append_assoc,
      Lines.cut_append '\n' (p.leftover ++ Utf8.fromUtf8Lossy chunk), SseFields.onLines_append]

/-- A body that breaks off makes the calls of the chunks before. -/
theorem SseParser.read_error (p : SseParser) (chunks : List Bytes) (e : Text)
    (rest : List (Except Text Bytes)) : p.read (chunks.map .ok ++ .error e :: rest) =
      ((p.read (chunks.map .ok)).1, .error (.httpError e)) := by
  induction chunks generalizing p with
  | nil => rfl
  | cons chunk chunks ih => rw [List.map_cons, List.cons_append, read, ih, read]

/-- The calls that `connect_sse` makes on a response that ends without an error. -/
theorem connectSse_calls (status : Text) (chunks : List Bytes) :
    (connectSse (.ok ⟨status, true, chunks.map .ok⟩)).1 =
      (SseFields.new.onLines (Lines.cut '\n' (Utf8.decodeChunks chunks)).1).2 := by
  rw [connectSse, if_pos rfl, SseParser.read_ok (by simp [SseParser.new])]
  rfl

end NotifiTransport

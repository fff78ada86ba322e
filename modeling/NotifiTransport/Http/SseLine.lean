import NotifiTransport.Http.Sse

/-! # Kinds of lines

`connect_sse` tells four kinds of lines apart: blank lines, event types, data and the lines that it
skips. The calls depend only on the kinds and on the trimmed values.
-/

namespace NotifiTransport

/-- What a line is to the reader. -/
inductive SseLine where
  | blank
  | event (value : Text)
  | data (value : Text)
  | other
  deriving DecidableEq

/-- Carriage returns at the end of a line do not count. -/
def SseLine.of (line : Text) : SseLine :=
  if line.all (· == '\r') then .blank
  else match stripPrefix "event:".toList line with
    | some value => .event (trim value)
    | none =>
      match stripPrefix "data:".toList line with
      | some value => .data (trim value)
      | none => .other

/-- The type that an `event:` line sets. -/
def SseLine.eventType : SseLine → Option Text
  | event value => some value
  | _ => none

/-- The data of a `data:` line. -/
def SseLine.dataLine : SseLine → Option Text
  | data value => some value
  | _ => none

namespace SseFields

def take (f : SseFields) : SseLine → SseFields × List SseCall
  | .blank =>
    if f.dataLines = [] then (f, [])
    else (new, [(f.eventType, joinLines f.dataLines)])
  | .event value => ({ f with eventType := value }, [])
  | .data value => ({ f with dataLines := f.dataLines ++ [value] }, [])
  | .other => (f, [])

def takeAll (f : SseFields) : List SseLine → SseFields × List SseCall
  | [] => (f, [])
  | l :: ls =>
    let s := (f.take l).1.takeAll ls
    (s.1, (f.take l).2 ++ s.2)

end SseFields

variable {c : Char} {t u pre rs : Text} {f : SseFields} {ls ms : List SseLine}

section Trim

theorem exists_trimEndMatches (c : Char) (t : Text) :
    ∃ rs, t = trimEndMatches c t ++ rs ∧ ∀ d ∈ rs, d = c := by
  refine ⟨(t.reverse.takeWhile (· == c)).reverse, ?_, ?_⟩
  · rw [trimEndMatches, ← List.reverse_append, List.takeWhile_append_dropWhile,
      List.reverse_reverse]
  · intro d hd
    simpa using List.mem_takeWhile_imp (List.mem_reverse.mp hd)

theorem trimEndMatches_eq_nil_iff : trimEndMatches c t = [] ↔ t.all (· == c) = true := by
  rw [trimEndMatches, List.reverse_eq_nil_iff, List.dropWhile_eq_nil_iff, List.all_eq_true]
  simp only [List.mem_reverse]

theorem prefix_append_iff (hpre : c ∉ pre) (hrs : ∀ d ∈ rs, d = c) :
    pre <+: u ++ rs ↔ pre <+: u := by
  constructor
  · intro h
    rcases le_or_gt pre.length u.length with hle | hlt
    · exact List.prefix_of_prefix_length_le h (List.prefix_append u rs) hle
    · -- the rest of the prefix would be a carriage return
      obtain ⟨w, rfl⟩ := List.prefix_of_prefix_length_le (List.prefix_append u rs) h hlt.le
      cases w with
      | nil =>
        rw [List.append_nil] at hlt
        exact absurd hlt (lt_irrefl _)
      | cons d w =>
        have hd : d ∈ rs := ((List.prefix_append_right_inj u).mp h).subset List.mem_cons_self
        rw [hrs d hd] at hpre
        exact absurd (List.mem_append_right _ List.mem_cons_self) hpre
  · exact fun h => h.trans (List.prefix_append u rs)

/-- A field is found whether or not the carriage returns are removed before. -/
theorem stripPrefix_append_returns (pre : Text) (hpre : '\r' ∉ pre) (hrs : ∀ d ∈ rs, d = '\r') :
    (stripPrefix pre (u ++ rs)).map trim = (stripPrefix pre u).map trim := by
  have hwhite : ∀ d ∈ rs, isWhitespace d = true := by
    intro d hd
    rw [hrs d hd]
    rfl
  by_cases h : pre <+: u
  · rw [stripPrefix, stripPrefix, if_pos h, if_pos ((prefix_append_iff hpre hrs).mpr h),
      List.drop_append_of_le_length h.length_le]
    exact congrArg some (Trim.trimBy_append_right hwhite)
  · rw [stripPrefix, stripPrefix, if_neg h, if_neg (mt (prefix_append_iff hpre hrs).mp h)]

end Trim

namespace SseFields

theorem onLine_eq_take (f : SseFields) (line : Text) :
    f.onLine (trimEndMatches '\r' line) = f.take (.of line) := by
  obtain ⟨rs, hline, hrs⟩ := exists_trimEndMatches '\r' line
  by_cases hblank : trimEndMatches '\r' line = []
  · rw [hblank, SseLine.of, if_pos (trimEndMatches_eq_nil_iff.mp hblank)]
    rfl
  · have hall : ¬ line.all (· == '\r') = true := mt trimEndMatches_eq_nil_iff.mpr hblank
    have hevent := stripPrefix_append_returns (u := trimEndMatches '\r' line)
      "event:".toList (by decide) hrs
    have hdata := stripPrefix_append_returns (u := trimEndMatches '\r' line)
      "data:".toList (by decide) hrs
    rw [← hline] at hevent hdata
    rw [onLine, if_neg hblank, SseLine.of, if_neg hall]
    cases he : stripPrefix "event:".toList (trimEndMatches '\r' line) with
    | some v =>
      rw [he] at hevent
      obtain ⟨w, hw, hv⟩ := Option.map_eq_some_iff.mp hevent
      simp only [hw, hv, take]
    | none =>
      rw [he] at hevent
      rw [Option.map_eq_none_iff.mp hevent]
      cases hd : stripPrefix "data:".toList (trimEndMatches '\r' line) with
      | some v =>
        rw [hd] at hdata
        obtain ⟨w, hw, hv⟩ := Option.map_eq_some_iff.mp hdata
        simp only [hw, hv, take]
      | none =>
        rw [hd] at hdata
        rw [Option.map_eq_none_iff.mp hdata]
        rfl

theorem onLines_eq_takeAll (f : SseFields) (lines : List Text) :
    f.onLines lines = f.takeAll (lines.map .of) := by
  induction lines generalizing f with
  | nil => rfl
  | cons line lines ih => rw [onLines, onLine_eq_take, ih, List.map_cons, takeAll]

theorem takeAll_append : f.takeAll (ls ++ ms) =
    (((f.takeAll ls).1.takeAll ms).1, (f.takeAll ls).2 ++ ((f.takeAll ls).1.takeAll ms).2) := by
  induction ls generalizing f with
  | nil => rfl
  | cons l ls ih => simp [takeAll, ih]

end SseFields

/-- The calls of `connect_sse` on a response whose body arrives in these chunks. -/
def sseCalls (status : Text) (chunks : List Bytes) : List SseCall :=
  (connectSse (.ok ⟨status, true, chunks.map .ok⟩)).1

theorem sseCalls_eq (status : Text) (chunks : List Bytes) : sseCalls status chunks =
    (SseFields.new.takeAll ((Lines.cut '\n' (Utf8.decodeChunks chunks)).1.map .of)).2 := by
  rw [sseCalls, connectSse_calls, SseFields.onLines_eq_takeAll]

/-- The calls of a response that breaks off. -/
theorem connectSse_error (status : Text) (chunks : List Bytes) (e : Text)
    (rest : List (Except Text Bytes)) :
    connectSse (.ok ⟨status, true, chunks.map .ok ++ .error e :: rest⟩) =
      (sseCalls status chunks, .error (.httpError e)) := by
  rw [sseCalls, connectSse, connectSse, if_pos rfl, if_pos rfl, SseParser.read_error]

end NotifiTransport

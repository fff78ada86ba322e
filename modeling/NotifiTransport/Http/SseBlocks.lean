import NotifiTransport.Http.SseLine

/-! # Blocks of a stream

A blank line resets the event type only together with a call. So the event type of a block without
data is kept for the next block with data, unless that block sets one itself.
-/

namespace NotifiTransport

open Utf8 (AtBoundaries)

/-- Lines none of which is blank, and a blank line with so many carriage returns. -/
structure SseBlock where
  lines : List Text
  returns : ℕ
  newline_notMem : ∀ l ∈ lines, '\n' ∉ l
  not_blank : ∀ l ∈ lines, SseLine.of l ≠ .blank

namespace SseBlock

def allLines (b : SseBlock) : List Text := b.lines ++ [List.replicate b.returns '\r']

def text (b : SseBlock) : Text := Lines.unlines '\n' b.allLines

/-- The last event type of the block. -/
def eventType (b : SseBlock) : Option Text :=
  (b.lines.filterMap fun l => (SseLine.of l).eventType).getLast?

def dataLines (b : SseBlock) : List Text := b.lines.filterMap fun l => (SseLine.of l).dataLine

/-- The next block that has an event type or data has data only. -/
def Untyped : List SseBlock → Prop
  | [] => False
  | b :: bs => b.eventType = none ∧ (b.dataLines ≠ [] ∨ Untyped bs)

/-- A block without data has an event type other than the default, which the next call shows. -/
def Leaks : List SseBlock → Prop
  | [] => False
  | b :: bs => (b.dataLines = [] ∧ (∃ v ∈ b.eventType, v ≠ SseFields.new.eventType) ∧ Untyped bs) ∨
      Leaks bs

end SseBlock

variable {f : SseFields} {b : SseBlock} {bs : List SseBlock} {lines : List Text} {v : Text}

namespace SseFields

/-- Lines that are not blank set the fields and call nothing. -/
theorem takeAll_fields (h : ∀ l ∈ lines, SseLine.of l ≠ .blank) : f.takeAll (lines.map .of) =
    (⟨((lines.filterMap fun l => (SseLine.of l).eventType).getLast?).getD f.eventType,
      f.dataLines ++ lines.filterMap fun l => (SseLine.of l).dataLine⟩, []) := by
  induction lines generalizing f with
  | nil => simp [takeAll]
  | cons l lines ih =>
    obtain ⟨hl, hrest⟩ := List.forall_mem_cons.mp h
    rw [List.map_cons, takeAll, ih hrest]
    cases hk : SseLine.of l with
    | blank => exact absurd hk hl
    | event value => simp [take, hk, SseLine.eventType, SseLine.dataLine, List.getLast?_cons]
    | data value => simp [take, hk, SseLine.eventType, SseLine.dataLine]
    | other => simp [take, hk, SseLine.eventType, SseLine.dataLine]

theorem of_returns (n : ℕ) : SseLine.of (List.replicate n '\r') = .blank := by
  rw [SseLine.of, if_pos]
  simp

/-- A block keeps its event type, if it has no data. -/
theorem takeAll_block (hf : f.dataLines = []) (b : SseBlock) :
    f.takeAll (b.allLines.map .of) =
      if b.dataLines = [] then (⟨b.eventType.getD f.eventType, []⟩, [])
      else (new, [(b.eventType.getD f.eventType, joinLines b.dataLines)]) := by
  rw [SseBlock.allLines, List.map_append, takeAll_append, takeAll_fields b.not_blank]
  simp only [List.map_cons, List.map_nil, takeAll, of_returns, take, hf, List.nil_append,
    List.append_nil]
  rw [← SseBlock.eventType, ← SseBlock.dataLines]
  by_cases hd : b.dataLines = []
  · rw [if_pos hd, if_pos hd, hd]
  · rw [if_neg hd, if_neg hd]

theorem getD_eq_getD_iff {o : Option Text} {t t' : Text} :
    o.getD t = o.getD t' ↔ o ≠ none ∨ t = t' := by
  cases o <;> simp

/-- The calls of blocks after a type that was left behind, against those of the blocks alone. -/
theorem takeAll_blocks_iff (hf : f.dataLines = []) (bs : List SseBlock) :
    (f.takeAll ((bs.flatMap SseBlock.allLines).map .of)).2 =
        bs.flatMap (fun b => (new.takeAll (b.allLines.map .of)).2) ↔
      ¬ (f.eventType ≠ new.eventType ∧ SseBlock.Untyped bs) ∧ ¬ SseBlock.Leaks bs := by
  induction bs generalizing f with
  | nil => simp [takeAll, SseBlock.Untyped, SseBlock.Leaks]
  | cons b bs ih =>
    have hfirst := takeAll_block hf b
    have halone := takeAll_block (f := new) rfl b
    rw [List.flatMap_cons, List.flatMap_cons, List.map_append, takeAll_append, SseBlock.Untyped,
      SseBlock.Leaks]
    by_cases hd : b.dataLines = []
    · rw [if_pos hd] at hfirst halone
      rw [hfirst, halone]
      dsimp only
      rw [List.nil_append, List.nil_append, ih rfl]
      cases he : b.eventType with
      | none => simp [hd]
      | some v => simp [hd]
    · rw [if_neg hd] at hfirst halone
      rw [hfirst, halone]
      dsimp only
      rw [List.singleton_append, List.singleton_append, List.cons.injEq, Prod.mk.injEq,
        getD_eq_getD_iff, ih rfl]
      simp only [hd]
      tauto

end SseFields

theorem sseCalls_text (status : Text) {chunks : List Bytes} (hat : AtBoundaries chunks)
    (h : chunks.flatten = Utf8.encode (bs.flatMap SseBlock.text)) : sseCalls status chunks =
      (SseFields.new.takeAll ((bs.flatMap SseBlock.allLines).map .of)).2 := by
  have htext : bs.flatMap SseBlock.text = Lines.unlines '\n' (bs.flatMap SseBlock.allLines) := by
    rw [Lines.unlines, List.flatMap_assoc]
    rfl
  have hlines : ∀ l ∈ bs.flatMap SseBlock.allLines, '\n' ∉ l := by
    intro l hl
    obtain ⟨b, -, hl⟩ := List.mem_flatMap.mp hl
    rcases List.mem_append.mp hl with hl | hl
    · exact b.newline_notMem l hl
    · rw [List.mem_singleton.mp hl]
      intro hmem
      exact absurd (List.eq_of_mem_replicate hmem) (by decide)
  rw [sseCalls_eq, hat.decodeChunks h, htext, Lines.cut_unlines hlines]

/-- The type of the first block is shown by a call for the second. -/
theorem sseCalls_leak : ∃ bs : List SseBlock,
    sseCalls "200 OK".toList [Utf8.encode (bs.flatMap SseBlock.text)] ≠
      bs.flatMap (fun b => sseCalls "200 OK".toList [Utf8.encode b.text]) := by
  refine ⟨[⟨["event: a".toList], 0, by decide, by decide⟩,
    ⟨["data: x".toList], 0, by decide, by decide⟩], ?_⟩
  simp only [sseCalls, connectSse_calls]
  decide +kernel

/-- The calls are those of the blocks one by one exactly if no event type leaks. -/
theorem sseCalls_blocks_iff (status : Text) (bs : List SseBlock) {chunks : List Bytes}
    (hat : AtBoundaries chunks)
    (h : chunks.flatten = Utf8.encode (bs.flatMap SseBlock.text)) :
    sseCalls status chunks = bs.flatMap (fun b => sseCalls status [Utf8.encode b.text]) ↔
      ¬ SseBlock.Leaks bs := by
  have halone : ∀ b : SseBlock, sseCalls status [Utf8.encode b.text] =
      (SseFields.new.takeAll (b.allLines.map .of)).2 := by
    intro b
    have hone : AtBoundaries [Utf8.encode b.text] := List.forall_mem_singleton.mpr ⟨b.text, rfl⟩
    have htext : [Utf8.encode b.text].flatten = Utf8.encode ([b].flatMap SseBlock.text) := by
      simp
    rw [sseCalls_text status hone htext, List.flatMap_singleton]
  rw [sseCalls_text status hat h, List.flatMap_congr fun b _ => halone b,
    SseFields.takeAll_blocks_iff rfl]
  simp

/-- The second block sets its own type. -/
theorem sseCalls_blocks_iff_typed :
    let bs : List SseBlock := [⟨["event: a".toList], 0, by decide, by decide⟩,
      ⟨["data: x".toList, "event: b".toList], 1, by decide, by decide⟩]
    sseCalls "200 OK".toList [Utf8.encode (bs.flatMap SseBlock.text)] =
      bs.flatMap (fun b => sseCalls "200 OK".toList [Utf8.encode b.text]) := by
  intro bs
  have hat : AtBoundaries [Utf8.encode (bs.flatMap SseBlock.text)] :=
    List.forall_mem_singleton.mpr ⟨_, rfl⟩
  apply (sseCalls_blocks_iff "200 OK".toList bs hat (List.append_nil _)).mpr
  have htyped : ¬ SseBlock.Untyped [⟨["data: x".toList, "event: b".toList], 1, by decide,
      by decide⟩] := by
    rintro ⟨h, -⟩
    cases h
  rintro (⟨-, -, h⟩ | ⟨h, -⟩ | h)
  · exact htyped h
  · cases h
  · exact h

end NotifiTransport

import Mathlib.Data.List.Basic

/-! # Merged streams

Several streams that are merged into one list: each stream keeps its order, and nothing is said of
the order between two of them.
-/

section Merge

variable {κ α : Type*} [DecidableEq κ]

/-- What a labelled list holds under one label. -/
def substream (k : κ) (l : List (κ × α)) : List α :=
  l.filterMap fun x => if x.1 = k then some x.2 else none

/-- `l` is made of first elements of the streams, each of them once and in the order of its
stream. -/
def Merges (streams : κ → List α) (l : List α) : Prop :=
  ∃ ls : List (κ × α), ls.map Prod.snd = l ∧ ∀ k, substream k ls <+: streams k

/-- `l` is made of all elements of the streams. -/
def MergesAll (streams : κ → List α) (l : List α) : Prop :=
  ∃ ls : List (κ × α), ls.map Prod.snd = l ∧ ∀ k, substream k ls = streams k

/-- `l` is made of elements of the streams, each of them at most once and in the order of its
stream. -/
def MergesSome (streams : κ → List α) (l : List α) : Prop :=
  ∃ ls : List (κ × α), ls.map Prod.snd = l ∧ ∀ k, (substream k ls).Sublist (streams k)

variable {k : κ} {l l' : List α} {ls : List (κ × α)} {streams : κ → List α}

@[simp] theorem substream_append (k : κ) (l l' : List (κ × α)) :
    substream k (l ++ l') = substream k l ++ substream k l' :=
  List.filterMap_append

theorem mem_substream {a : α} : a ∈ substream k ls ↔ (k, a) ∈ ls := by
  simp only [substream, List.mem_filterMap, Option.ite_none_right_eq_some, Option.some.injEq,
    Prod.exists]
  constructor
  · rintro ⟨_, _, h, rfl, rfl⟩
    exact h
  · intro h
    exact ⟨k, a, h, rfl, rfl⟩

/-- A filter that does not look at the labels. -/
theorem filter_substream (p : α → Bool) (k : κ) (ls : List (κ × α)) :
    (substream k ls).filter p = substream k (ls.filter fun x => p x.2) := by
  rw [substream, substream, List.filter_filterMap, List.filterMap_filter]
  apply List.filterMap_congr
  intro x _
  by_cases hx : x.1 = k <;> by_cases hp : p x.2 <;> simp [hx, hp]

theorem Merges.of_prefix (h : Merges streams l) (hl : l' <+: l) : Merges streams l' := by
  obtain ⟨ls, rfl, hk⟩ := h
  refine ⟨ls.take l'.length, ?_, fun k => ?_⟩
  · rw [List.map_take]
    exact (List.prefix_iff_eq_take.mp hl).symm
  · exact ((List.take_prefix _ ls).filterMap _).trans (hk k)

end Merge

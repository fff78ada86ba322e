import NotifiTransport.Lib.Mealy

/-! # A machine behind a FIFO channel

The environment puts elements into the channel at any time. `reads` says what an input of the
machine does to the channel, and refuses an input that does not fit what the channel holds.
What has been put in is what the machine has taken, in the same order, and what is left.
-/

namespace Mealy

variable {σ ι ω κ : Type*}

def behind (M : Mealy σ ι ω) (reads : ι → List κ → Option (List κ)) :
    Mealy (σ × List κ) (κ ⊕ ι) ω where
  step s
    | .inl c => some ((s.1, s.2 ++ [c]), [])
    | .inr i => (reads i s.2).bind fun q => (M.step s.1 i).map fun r => ((r.1, q), r.2)

/-- The elements put into the channel. -/
def arrivals (es : List (κ ⊕ ι)) : List κ := es.filterMap Sum.getLeft?

/-- The inputs of the machine itself. -/
def inputs (es : List (κ ⊕ ι)) : List ι := es.filterMap Sum.getRight?

variable {M : Mealy σ ι ω} {reads : ι → List κ → Option (List κ)} {taken : ι → List κ} {s t : σ}
  {q q' : List κ} {es : List (κ ⊕ ι)} {tr : List ω}

theorem arrivals_concat_inl (c : κ) :
    arrivals (es ++ [.inl c] : List (κ ⊕ ι)) = arrivals es ++ [c] := by
  rw [arrivals, List.filterMap_append]
  rfl

theorem arrivals_concat_inr (i : ι) : arrivals (es ++ [.inr i] : List (κ ⊕ ι)) = arrivals es := by
  rw [arrivals, List.filterMap_append]
  exact List.append_nil _

theorem inputs_concat_inl (c : κ) : inputs (es ++ [.inl c] : List (κ ⊕ ι)) = inputs es := by
  rw [inputs, List.filterMap_append]
  exact List.append_nil _

theorem inputs_concat_inr (i : ι) :
    inputs (es ++ [.inr i] : List (κ ⊕ ι)) = inputs es ++ [i] := by
  rw [inputs, List.filterMap_append]
  rfl

/-- The machine behind the channel has a run of its own, and takes the elements in the order of
their arrival. -/
theorem run_behind (htaken : ∀ i q q', reads i q = some q' → q = taken i ++ q')
    (h : (M.behind reads).run (s, q) es = some ((t, q'), tr)) :
    M.run s (inputs es) = some (t, tr) ∧ q ++ arrivals es = (inputs es).flatMap taken ++ q' := by
  refine run_induction (P := fun es tr u => M.run s (inputs es) = some (u.1, tr) ∧
    q ++ arrivals es = (inputs es).flatMap taken ++ u.2) ?_ ?_ h
  · exact ⟨rfl, by simp [inputs, arrivals]⟩
  · rintro es tr ⟨m, p⟩ e ⟨m', p'⟩ o - ⟨hr, hq⟩ hs
    cases e with
    | inl c =>
      cases hs
      rw [inputs_concat_inl, arrivals_concat_inl, List.append_nil, ← List.append_assoc, hq,
        List.append_assoc]
      exact ⟨hr, rfl⟩
    | inr i =>
      obtain ⟨_, hp, hs⟩ := Option.bind_eq_some_iff.mp hs
      obtain ⟨r, hst, hr'⟩ := Option.map_eq_some_iff.mp hs
      cases hr'
      have hp' : p = taken i ++ p' := htaken i p p' hp
      rw [inputs_concat_inr, arrivals_concat_inr, hq, hp']
      constructor
      · exact run_concat.mpr ⟨m, tr, r.2, hr, hst, rfl⟩
      · simp

end Mealy

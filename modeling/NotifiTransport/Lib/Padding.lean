import NotifiTransport.Lib.Mealy

/-! # Runs with inputs put in

The inputs of a run, with others put in between them, and what an observer of the outputs
makes of it. When an input that was put in ends all observable output, the observer is right
about the run exactly when that run shows no more than the input itself did.
-/

namespace Mealy

variable {σ ι ω α : Type*} (M : Mealy σ ι ω)

/-- The outputs up to the first input that is refused. -/
def emits : σ → List ι → List ω
  | _, [] => []
  | s, i :: is =>
    match M.step s i with
    | none => []
    | some (s', o) => o ++ emits s' is

/-- `js` is `is` with inputs put in that `C` allows where they stand in the run from `s`. -/
inductive Padded (C : σ → ι → Prop) : σ → List ι → List ι → Prop where
  | nil (s : σ) : Padded C s [] []

  | keep {s s' : σ} {i : ι} {o : List ω} {is js : List ι} (hs : M.step s i = some (s', o))
      (hp : Padded C s' is js) : Padded C s (i :: is) (i :: js)

  | insert {s : σ} {c : ι} {is js : List ι} (hc : C s c) (hp : Padded C s is js) :
      Padded C s is (c :: js)

variable {M} {s s' t : σ} {i : ι} {is js : List ι} {o tr : List ω}

@[simp] theorem emits_nil : M.emits s [] = [] := rfl

theorem emits_cons (hs : M.step s i = some (s', o)) : M.emits s (i :: is) = o ++ M.emits s' is := by
  simp [emits, hs]

theorem emits_of_refused (hs : M.step s i = none) : M.emits s (i :: is) = [] := by
  simp [emits, hs]

theorem emits_append (h : M.run s is = some (t, tr)) :
    M.emits s (is ++ js) = tr ++ M.emits t js := by
  induction is generalizing s tr with
  | nil =>
    obtain ⟨rfl, rfl⟩ := run_nil.mp h
    rfl
  | cons i is ih =>
    obtain ⟨s', o, tr', hs, hr, rfl⟩ := run_cons.mp h
    rw [List.cons_append, emits_cons hs, ih hr, List.append_assoc]

theorem emits_of_run (h : M.run s is = some (t, tr)) : M.emits s is = tr := by
  rw [← List.append_nil is, emits_append h, emits_nil, List.append_nil]

/-- Nothing is put into the first part of the run. -/
theorem Padded.after {C : σ → ι → Prop} {ks : List ι} (h : M.run s is = some (t, tr))
    (hp : M.Padded C t js ks) : M.Padded C s (is ++ js) (is ++ ks) := by
  induction is generalizing s tr with
  | nil =>
    obtain ⟨rfl, -⟩ := run_nil.mp h
    exact hp
  | cons i is ih =>
    obtain ⟨s', o, tr', hs, hr, -⟩ := run_cons.mp h
    exact .keep hs (ih hr)

/-- What `h` observes of a run with inputs put in is what it observes without them, if and only
if at each of them the rest of the run shows what the input itself shows. -/
theorem padded_observed_iff {C : σ → ι → Prop} {h : ω → Option α}
    (last : ∀ s c, C s c → ∃ s' o, M.step s c = some (s', o) ∧
      ∀ ks, (M.emits s' ks).filterMap h = [])
    (hp : M.Padded C s is js) :
    (M.emits s js).filterMap h = (M.emits s is).filterMap h ↔
      ∀ pre c post rest, js = pre ++ c :: post → is = pre ++ rest →
        ∀ m u, M.run s pre = some (m, u) → C m c →
          (M.emits m [c]).filterMap h = (M.emits m rest).filterMap h := by
  induction hp with
  | nil s => simp
  | @keep s s' i o is js hs hp ih =>
    rw [emits_cons hs, emits_cons hs, List.filterMap_append, List.filterMap_append,
      List.append_cancel_left_eq, ih]
    constructor
    · rintro hrest pre c post rest hj hi m u hm hc
      rcases pre with _ | ⟨k, pre⟩
      · obtain ⟨rfl, -⟩ := run_nil.mp hm
        obtain ⟨rfl, rfl⟩ := List.cons.inj hj
        obtain rfl : i :: is = rest := hi
        obtain ⟨s₁, o₁, hs₁, hend⟩ := last m i hc
        rw [emits_cons hs₁, emits_cons hs₁]
        simp [hend]
      · obtain ⟨rfl, rfl⟩ := List.cons.inj hj
        obtain ⟨-, rfl⟩ := List.cons.inj hi
        obtain ⟨s₁, o₁, u', hs₁, hr, rfl⟩ := run_cons.mp hm
        rw [hs] at hs₁
        cases hs₁
        exact hrest pre c post rest rfl rfl m u' hr hc
    · rintro hall pre c post rest rfl rfl m u hm hc
      exact hall (i :: pre) c post rest rfl rfl m (o ++ u) (run_cons.mpr ⟨s', o, u, hs, hm, rfl⟩) hc
  | @insert s c is js hc hp ih =>
    obtain ⟨s', o, hs, hend⟩ := last s c hc
    have hone : ∀ ks, (M.emits s (c :: ks)).filterMap h = o.filterMap h := by
      intro ks
      rw [emits_cons hs, List.filterMap_append, hend, List.append_nil]
    rw [hone]
    constructor
    · rintro heq pre k post rest hj rfl m u hm hk
      rcases pre with _ | ⟨j, pre⟩
      · obtain ⟨rfl, -⟩ := run_nil.mp hm
        obtain ⟨rfl, rfl⟩ := List.cons.inj hj
        rw [hone, heq, List.nil_append]
      · -- behind an input that ends the output nothing is to be seen on either side
        obtain ⟨rfl, rfl⟩ := List.cons.inj hj
        obtain ⟨s₁, o₁, u', hs₁, hr, rfl⟩ := run_cons.mp hm
        rw [hs] at hs₁
        cases hs₁
        have hnone : ∀ ks, (M.emits m ks).filterMap h = [] := by
          intro ks
          have hks := hend (pre ++ ks)
          rw [emits_append hr, List.filterMap_append, List.append_eq_nil_iff] at hks
          exact hks.2
        rw [hnone, hnone]
    · intro hall
      rw [← hone [], hall [] c js is rfl rfl s [] (run_nil.mpr ⟨rfl, rfl⟩) hc]

end Mealy

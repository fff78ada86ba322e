import Mathlib.Data.List.Induction
import Mathlib.Data.Option.Basic

/-! # Partial Mealy machines

A machine reads one input at a time, may refuse it, and emits a list of outputs.
Runs concatenate the outputs. Every fact about runs in this library follows from
one induction rule that extends a run by its last input.
-/

/-- A partial machine with states `σ`, inputs `ι` and outputs `ω`. -/
structure Mealy (σ ι ω : Type*) where
  step : σ → ι → Option (σ × List ω)

namespace Mealy

variable {σ ι ω : Type*} (M : Mealy σ ι ω)

/-- Read all inputs in order and concatenate the outputs. -/
def run : σ → List ι → Option (σ × List ω)
  | s, [] => some (s, [])
  | s, i :: is =>
    match M.step s i with
    | none => none
    | some (s', o) => (run s' is).map fun r => (r.1, o ++ r.2)

variable {M} {s s' t : σ} {i : ι} {is js : List ι} {o tr : List ω}

@[simp] theorem run_nil : M.run s [] = some (t, tr) ↔ t = s ∧ tr = [] := by
  simp [run, eq_comm]

theorem run_cons : M.run s (i :: is) = some (t, tr) ↔
    ∃ s' o tr', M.step s i = some (s', o) ∧ M.run s' is = some (t, tr') ∧ tr = o ++ tr' := by
  rw [run]
  split
  · next h => simp [h]
  · next s' o h =>
    simp only [Option.map_eq_some_iff, Prod.exists, Prod.mk.injEq, h, Option.some.injEq]
    constructor
    · rintro ⟨u, tr', hr, rfl, rfl⟩
      exact ⟨s', o, tr', ⟨rfl, rfl⟩, hr, rfl⟩
    · rintro ⟨_, _, tr', ⟨rfl, rfl⟩, hr, rfl⟩
      exact ⟨t, tr', hr, rfl, rfl⟩

theorem run_append : M.run s (is ++ js) = some (t, tr) ↔
    ∃ m tr₁ tr₂, M.run s is = some (m, tr₁) ∧ M.run m js = some (t, tr₂) ∧ tr = tr₁ ++ tr₂ := by
  induction is generalizing s tr with
  | nil => simp
  | cons i is ih =>
    simp only [List.cons_append, run_cons, ih]
    constructor
    · rintro ⟨s', o, _, hs, ⟨m, tr₁, tr₂, h₁, h₂, rfl⟩, rfl⟩
      exact ⟨m, o ++ tr₁, tr₂, ⟨s', o, tr₁, hs, h₁, rfl⟩, h₂, by simp⟩
    · rintro ⟨m, _, tr₂, ⟨s', o, tr₁, hs, h₁, rfl⟩, h₂, rfl⟩
      exact ⟨s', o, tr₁ ++ tr₂, hs, ⟨m, tr₁, tr₂, h₁, h₂, rfl⟩, by simp⟩

theorem run_concat : M.run s (is ++ [i]) = some (t, tr) ↔
    ∃ m tr' o, M.run s is = some (m, tr') ∧ M.step m i = some (t, o) ∧ tr = tr' ++ o := by
  simp only [run_append, run_cons, run_nil]
  constructor
  · rintro ⟨m, tr₁, _, h, ⟨_, o, _, hs, ⟨rfl, rfl⟩, rfl⟩, rfl⟩
    exact ⟨m, tr₁, o, h, hs, by simp⟩
  · rintro ⟨m, tr', o, h, hs, rfl⟩
    exact ⟨m, tr', o, h, ⟨t, o, [], hs, ⟨rfl, rfl⟩, by simp⟩, rfl⟩

/-- The rest of a run, from the state after its first part. -/
theorem run_rest {m : σ} {u : List ω} (h : M.run s (is ++ js) = some (t, tr))
    (hm : M.run s is = some (m, u)) : ∃ v, M.run m js = some (t, v) ∧ tr = u ++ v := by
  obtain ⟨m₁, u₁, v, h₁, h₂, rfl⟩ := run_append.mp h
  rw [hm] at h₁
  cases h₁
  exact ⟨v, h₂, rfl⟩

/-- A run that reads `is` and then `i` takes its step on `i` in the state after `is`. -/
theorem run_at {m : σ} {u : List ω} (h : M.run s (is ++ i :: js) = some (t, tr))
    (hm : M.run s is = some (m, u)) :
    ∃ m' o v, M.step m i = some (m', o) ∧ M.run m' js = some (t, v) ∧ tr = u ++ (o ++ v) := by
  obtain ⟨w, hw, rfl⟩ := run_rest h hm
  obtain ⟨m', o, v, hs, hr, rfl⟩ := run_cons.mp hw
  exact ⟨m', o, v, hs, hr, rfl⟩

/-- Induction over a run, extended on the right by one step. -/
theorem run_induction {s₀ : σ} {P : List ι → List ω → σ → Prop} (nil : P [] [] s₀)
    (step : ∀ is tr s i s' o, M.run s₀ is = some (s, tr) → P is tr s →
      M.step s i = some (s', o) → P (is ++ [i]) (tr ++ o) s')
    (h : M.run s₀ is = some (t, tr)) : P is tr t := by
  induction is using List.reverseRecOn generalizing t tr with
  | nil =>
    obtain ⟨rfl, rfl⟩ := run_nil.mp h
    exact nil
  | append_singleton is i ih =>
    obtain ⟨m, tr', o, hr, hs, rfl⟩ := run_concat.mp h
    exact step _ _ _ _ _ _ hr (ih hr) hs

/-- A state predicate that every step preserves holds at the end of every run. -/
theorem run_invariant {P : σ → Prop}
    (step : ∀ s i s' o, P s → M.step s i = some (s', o) → P s')
    (h : M.run s is = some (t, tr)) (hs : P s) : P t :=
  run_induction (P := fun _ _ u => P u) hs (fun _ _ s i s' o _ hp hst => step s i s' o hp hst) h

/-- Every step of the run from `s` that reads `is` meets `G`. -/
def Along (M : Mealy σ ι ω) (G : σ → ι → Prop) (s : σ) (is : List ι) : Prop :=
  ∀ pre i post, is = pre ++ i :: post → ∀ m tr, M.run s pre = some (m, tr) → G m i

theorem along_nil {G : σ → ι → Prop} : M.Along G s [] := by
  intro pre i post h
  exact absurd h.symm (by simp)

theorem along_cons {G : σ → ι → Prop} : M.Along G s (i :: is) ↔
    G s i ∧ ∀ s' o, M.step s i = some (s', o) → M.Along G s' is := by
  constructor
  · intro h
    constructor
    · exact h [] i is rfl s [] rfl
    · rintro s' o hs pre j post rfl m tr hr
      exact h (i :: pre) j post rfl m (o ++ tr) (run_cons.mpr ⟨s', o, tr, hs, hr, rfl⟩)
  · rintro ⟨h, hrest⟩ pre j post hj m tr hr
    cases pre with
    | nil =>
      obtain ⟨rfl, rfl⟩ := List.cons.inj hj
      obtain ⟨rfl, -⟩ := run_nil.mp hr
      exact h
    | cons k pre =>
      obtain ⟨rfl, rfl⟩ := List.cons.inj hj
      obtain ⟨s', o, tr', hs, hr', -⟩ := run_cons.mp hr
      exact hrest s' o hs pre j post rfl m tr' hr'

theorem Along.left {G : σ → ι → Prop} (h : M.Along G s (is ++ js)) : M.Along G s is := by
  rintro pre i post rfl m tr hr
  exact h pre i (post ++ js) (by simp) m tr hr

theorem Along.right {G : σ → ι → Prop} (h : M.Along G s (is ++ js))
    (hr : M.run s is = some (t, tr)) : M.Along G t js := by
  rintro pre i post rfl m u hm
  exact h (is ++ pre) i post (by simp) m (tr ++ u) (run_append.mpr ⟨t, tr, u, hr, hm, rfl⟩)

theorem Along.last {G : σ → ι → Prop} (h : M.Along G s (is ++ [i]))
    (hr : M.run s is = some (t, tr)) : G t i :=
  h is i [] rfl t tr hr

theorem Along.concat {G : σ → ι → Prop} (h : M.Along G s is) (hr : M.run s is = some (t, tr))
    (hi : G t i) : M.Along G s (is ++ [i]) := by
  intro pre j post hj m u hm
  rcases List.eq_nil_or_concat post with rfl | ⟨post, k, rfl⟩
  · obtain ⟨rfl, hij⟩ := List.append_inj' hj rfl
    cases hij
    rw [hr] at hm
    cases hm
    exact hi
  · rw [List.concat_eq_append, ← List.cons_append, ← List.append_assoc] at hj
    exact h pre j post (List.append_inj' hj rfl).1 m u hm

/-- Induction over a run all of whose steps meet a condition. -/
theorem run_induction_along {s₀ : σ} {G : σ → ι → Prop} {P : List ι → List ω → σ → Prop}
    (nil : P [] [] s₀)
    (step : ∀ is tr s i s' o, M.run s₀ is = some (s, tr) → P is tr s → G s i →
      M.step s i = some (s', o) → P (is ++ [i]) (tr ++ o) s')
    (h : M.run s₀ is = some (t, tr)) (hG : M.Along G s₀ is) : P is tr t :=
  run_induction (P := fun is tr t => M.Along G s₀ is → P is tr t) (fun _ => nil)
    (fun is tr s i s' o hr ih hs hG =>
      step is tr s i s' o hr (ih hG.left) (hG.last hr) hs) h hG

/-- If each step of a run from a good state leads to a good state exactly when it meets a condition,
then all states of the run are good exactly when all its steps meet the condition. -/
theorem run_always_iff {s₀ : σ} {G : σ → ι → Prop} {P : σ → Prop} (init : P s₀)
    (step : ∀ pre i post, is = pre ++ i :: post → ∀ m u m' o, M.run s₀ pre = some (m, u) → P m →
      M.step m i = some (m', o) → (P m' ↔ G m i))
    (h : M.run s₀ is = some (t, tr)) :
    (∀ pre post, is = pre ++ post → ∀ m u, M.run s₀ pre = some (m, u) → P m) ↔
      M.Along G s₀ is := by
  constructor
  · rintro hP pre i post rfl m u hm
    obtain ⟨m', o, v, hs, -, -⟩ := run_at h hm
    have hnext : P m' := hP (pre ++ [i]) post (by simp) m' _ (run_concat.mpr ⟨m, u, o, hm, hs, rfl⟩)
    exact (step pre i post rfl m u m' o hm (hP pre (i :: post) rfl m u hm) hs).mp hnext
  · intro hG pre
    induction pre using List.reverseRecOn with
    | nil =>
      intro post _ m u hm
      obtain ⟨rfl, -⟩ := run_nil.mp hm
      exact init
    | append_singleton pre i ih =>
      rintro post rfl m u hm
      obtain ⟨n, v, o, hn, hs, -⟩ := run_concat.mp hm
      have hsplit : pre ++ [i] ++ post = pre ++ i :: post := by simp
      have hgood : P n := ih (i :: post) hsplit n v hn
      exact (step pre i post hsplit n v m o hn hgood hs).mpr (hG pre i post hsplit n v hn)

/-- A split of the outputs at `x` splits the run at the step that emitted `x`. -/
theorem run_split {x : ω} {u v : List ω} (h : M.run s is = some (t, u ++ x :: v)) :
    ∃ pre i post m tr m' o₁ o₂, is = pre ++ i :: post ∧ M.run s pre = some (m, tr) ∧
      M.step m i = some (m', o₁ ++ x :: o₂) ∧ u = tr ++ o₁ := by
  generalize htr : u ++ x :: v = tr at h
  refine run_induction (P := fun is tr _ => ∀ u v, u ++ x :: v = tr →
    ∃ pre i post m tr m' o₁ o₂, is = pre ++ i :: post ∧ M.run s pre = some (m, tr) ∧
      M.step m i = some (m', o₁ ++ x :: o₂) ∧ u = tr ++ o₁) (by simp) ?_ h u v htr
  intro is tr m i s' o hr ih hs u v huv
  rcases List.append_eq_append_iff.mp huv with ⟨w, rfl, hw⟩ | ⟨w, rfl, hw⟩
  · rcases w with _ | ⟨y, w⟩
    · exact ⟨is, i, [], m, u, s', [], v, rfl, by simpa using hr, by simpa [hw] using hs, by simp⟩
    · obtain ⟨rfl, rfl⟩ := List.cons.inj hw
      obtain ⟨pre, j, post, n, tr, n', o₁, o₂, rfl, h₁, h₂, rfl⟩ := ih u w rfl
      exact ⟨pre, j, post ++ [i], n, tr, n', o₁, o₂, by simp, h₁, h₂, rfl⟩
  · exact ⟨is, i, [], m, tr, s', w, v, rfl, hr, hw ▸ hs, rfl⟩

/-- Every output of a run was emitted by one of its steps. -/
theorem run_output {x : ω} (h : M.run s is = some (t, tr)) (hx : x ∈ tr) :
    ∃ m i m' o, M.step m i = some (m', o) ∧ x ∈ o := by
  obtain ⟨u, v, rfl⟩ := List.append_of_mem hx
  obtain ⟨pre, i, post, m, tr, m', o₁, o₂, -, -, hs, -⟩ := run_split h
  exact ⟨m, i, m', _, hs, by simp⟩

section Watch

variable {ω' : Type*} {g : σ → ι → σ → List ω'}

/-- The machine with other outputs, which `g` makes of the state, the input and the next state. -/
def watch (M : Mealy σ ι ω) (g : σ → ι → σ → List ω') : Mealy σ ι ω' where
  step s i := (M.step s i).map fun r => (r.1, g s i r.1)

theorem step_watch {o' : List ω'} : (M.watch g).step s i = some (t, o') ↔
    ∃ o, M.step s i = some (t, o) ∧ o' = g s i t := by
  simp only [watch, Option.map_eq_some_iff, Prod.exists, Prod.mk.injEq]
  constructor
  · rintro ⟨t, o, hs, rfl, rfl⟩
    exact ⟨o, hs, rfl⟩
  · rintro ⟨o, hs, rfl⟩
    exact ⟨t, o, hs, rfl, rfl⟩

/-- A run can be watched. -/
theorem run_watch (g : σ → ι → σ → List ω') (h : M.run s is = some (t, tr)) :
    ∃ tr', (M.watch g).run s is = some (t, tr') := by
  refine run_induction (P := fun is _ t => ∃ tr', (M.watch g).run s is = some (t, tr'))
    ⟨[], rfl⟩ ?_ h
  rintro is tr m i t o - ⟨tr', hr⟩ hs
  exact ⟨_, run_concat.mpr ⟨m, tr', _, hr, step_watch.mpr ⟨o, hs, rfl⟩, rfl⟩⟩

theorem run_watch_state {tr' : List ω'} (h : M.run s is = some (t, tr))
    (hw : (M.watch g).run s is = some (s', tr')) : s' = t := by
  obtain ⟨_, hr⟩ := run_watch g h
  cases hw.symm.trans hr
  rfl

/-- Induction over a run together with what is watched of it. -/
theorem run_watch_induction {s₀ : σ} {P : List ω → List ω' → σ → Prop} {tr' : List ω'}
    (nil : P [] [] s₀)
    (step : ∀ tr tr' s i s' o, P tr tr' s → M.step s i = some (s', o) →
      P (tr ++ o) (tr' ++ g s i s') s')
    (h : M.run s₀ is = some (t, tr)) (hw : (M.watch g).run s₀ is = some (s, tr')) : P tr tr' t := by
  refine run_induction (P := fun is tr t => ∀ s tr', (M.watch g).run s₀ is = some (s, tr') →
    P tr tr' t) ?_ ?_ h s tr' hw
  · intro s tr' hw
    obtain ⟨-, rfl⟩ := run_nil.mp hw
    exact nil
  · intro is tr m i m' o hr ih hs s tr' hw
    obtain ⟨n, u, o', hn, hs', rfl⟩ := run_concat.mp hw
    obtain ⟨v, hv⟩ := run_watch g hr
    cases hn.symm.trans hv
    obtain ⟨o₁, hs₁, rfl⟩ := step_watch.mp hs'
    cases hs.symm.trans hs₁
    exact step tr u m i m' o (ih m u hn) hs

end Watch

section Restrict

variable {G : σ → ι → Prop} [∀ s i, Decidable (G s i)]

/-- The machine that refuses the steps that do not meet `G`. -/
def restrict (M : Mealy σ ι ω) (G : σ → ι → Prop) [∀ s i, Decidable (G s i)] : Mealy σ ι ω where
  step s i := if G s i then M.step s i else none

theorem step_restrict : (M.restrict G).step s i = some (t, o) ↔
    G s i ∧ M.step s i = some (t, o) := by
  simp only [restrict, Option.ite_none_right_eq_some]

/-- The runs of the restricted machine are the runs that meet `G` in every step. -/
theorem run_restrict : (M.restrict G).run s is = some (t, tr) ↔
    M.run s is = some (t, tr) ∧ M.Along G s is := by
  induction is generalizing s tr with
  | nil => simp [along_nil]
  | cons i is ih =>
    simp only [run_cons, step_restrict, ih, along_cons]
    constructor
    · rintro ⟨s', o, tr', ⟨hg, hs⟩, ⟨hr, ha⟩, rfl⟩
      refine ⟨⟨s', o, tr', hs, hr, rfl⟩, hg, fun s₁ o₁ h₁ => ?_⟩
      cases hs.symm.trans h₁
      exact ha
    · rintro ⟨⟨s', o, tr', hs, hr, rfl⟩, hg, ha⟩
      exact ⟨s', o, tr', ⟨hg, hs⟩, ⟨hr, ha s' o hs⟩, rfl⟩

end Restrict

section Simulation

variable {σ' ι' ω' : Type*} {N : Mealy σ' ι' ω'}

/-- `f` maps each step of `M` to a run of `N` whose outputs are those `h` keeps. -/
theorem run_simulation (f : σ → σ') (h : ω → Option ω')
    (step : ∀ s i s' o, M.step s i = some (s', o) →
      ∃ js, N.run (f s) js = some (f s', o.filterMap h))
    (hr : M.run s is = some (t, tr)) :
    ∃ js, N.run (f s) js = some (f t, tr.filterMap h) := by
  refine run_induction (P := fun _ tr t => ∃ js, N.run (f s) js = some (f t, tr.filterMap h))
    ⟨[], by simp⟩ ?_ hr
  rintro is tr m i s' o - ⟨js, hj⟩ hs
  obtain ⟨ks, hk⟩ := step _ _ _ _ hs
  exact ⟨js ++ ks, run_append.mpr ⟨_, _, _, hj, hk, by simp⟩⟩

end Simulation

end Mealy

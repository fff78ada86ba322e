import Mathlib.Data.List.ModifyLast
import NotifiTransport.Lib.Duplex

/-! # Visits to a region

A machine enters a region of its states again and again, and behaves there as an endpoint. Each
visit keeps a record of its own; the last one is at the end. So what holds of all runs of the
endpoint holds of every visit, and what the machine does in the region it does in its visits, one
after the other.
-/

/-- A stay in a region: the state in which it began, what has been read since, the record, and the
outputs. -/
structure Visit (σ ι ω κ π : Type*) where
  entry : σ
  inputs : List ι
  record : Recorded σ κ π
  trace : List ω

section Visits

variable {σ ι ω κ π : Type*}

namespace Visit

def enter (s : σ) : Visit σ ι ω κ π := ⟨s, [], .fresh s, []⟩

/-- The visit after a step that reads `i`. -/
def extend (D : Endpoint σ ι ω κ π) (i : ι) (t : σ) (o : List ω) (v : Visit σ ι ω κ π) :
    Visit σ ι ω κ π where
  entry := v.entry
  inputs := v.inputs ++ [i]
  record := ⟨t, v.record.sealed ++ D.seals v.record.state i,
    v.record.opened ++ D.opens v.record.state i⟩
  trace := v.trace ++ o

/-- The visit is a run of the endpoint. -/
def Runs (D : Endpoint σ ι ω κ π) (v : Visit σ ι ω κ π) : Prop :=
  D.recorded.run (.fresh v.entry) v.inputs = some (v.record, v.trace)

variable {D : Endpoint σ ι ω κ π} {v : Visit σ ι ω κ π} {i : ι} {t : σ} {o : List ω}

theorem runs_enter (s : σ) : (enter s : Visit σ ι ω κ π).Runs D := rfl

theorem Runs.extend (h : v.Runs D) (hs : D.step v.record.state i = some (t, o)) :
    (v.extend D i t o).Runs D :=
  Mealy.run_concat.mpr ⟨v.record, v.trace, o, h, Endpoint.recorded_step.mpr ⟨hs, rfl, rfl⟩, rfl⟩

end Visit

/-- The machine with its visits to `inside`. -/
def Mealy.visiting (M : Mealy σ ι ω) (D : Endpoint σ ι ω κ π) (inside : σ → Bool) :
    Mealy (σ × List (Visit σ ι ω κ π)) ι ω where
  step s i := (M.step s.1 i).map fun r =>
    ((r.1,
      if inside s.1 then s.2.modifyLast (.extend D i r.1 r.2)
      else if inside r.1 then s.2 ++ [.enter r.1] else s.2), r.2)

namespace Mealy

variable {M : Mealy σ ι ω} {D : Endpoint σ ι ω κ π} {inside : σ → Bool} {P : σ → Prop}
  {s t : σ} {vs vs' : List (Visit σ ι ω κ π)} {i : ι} {is : List ι} {o tr : List ω}

theorem step_visiting : (M.visiting D inside).step (s, vs) i = some ((t, vs'), o) ↔
    M.step s i = some (t, o) ∧ vs' = if inside s then vs.modifyLast (.extend D i t o)
      else if inside t then vs ++ [.enter t] else vs := by
  simp only [visiting, Option.map_eq_some_iff, Prod.exists, Prod.mk.injEq]
  constructor
  · rintro ⟨t, o, hs, ⟨rfl, rfl⟩, rfl⟩
    exact ⟨hs, rfl⟩
  · rintro ⟨hs, rfl⟩
    exact ⟨t, o, hs, ⟨rfl, rfl⟩, rfl⟩

/-- The visits do not interfere. -/
theorem run_visiting (h : (M.visiting D inside).run (s, vs) is = some ((t, vs'), tr)) :
    M.run s is = some (t, tr) := by
  refine run_induction (P := fun is tr t => M.run s is = some (t.1, tr)) rfl ?_ h
  intro is tr m i m' o _ hr hs
  exact run_concat.mpr ⟨m.1, tr, o, hr, (step_visiting.mp hs).1, rfl⟩

/-- The visits are runs of the endpoint from entries that meet `P`; a machine inside is on the last
of them. -/
structure Visited (D : Endpoint σ ι ω κ π) (inside : σ → Bool) (P : σ → Prop) (s : σ)
    (vs : List (Visit σ ι ω κ π)) : Prop where
  runs : ∀ v ∈ vs, v.Runs D
  entries : ∀ v ∈ vs, P v.entry
  last : inside s → ∃ old v, vs = old ++ [v] ∧ v.record.state = s

theorem Visited.step (hv : Visited D inside P s vs)
    (hD : ∀ s i t o, inside s → M.step s i = some (t, o) → D.step s i = some (t, o))
    (hP : ∀ s i t o, inside s = false → inside t → M.step s i = some (t, o) → P t)
    (h : (M.visiting D inside).step (s, vs) i = some ((t, vs'), o)) :
    Visited D inside P t vs' := by
  obtain ⟨hs, rfl⟩ := step_visiting.mp h
  split
  · next hin =>
    obtain ⟨old, v, rfl, rfl⟩ := hv.last hin
    rw [List.modifyLast_concat]
    have hruns := List.forall_mem_append.mp hv.runs
    have hentries := List.forall_mem_append.mp hv.entries
    refine ⟨List.forall_mem_append.mpr ⟨hruns.1, ?_⟩, List.forall_mem_append.mpr ⟨hentries.1, ?_⟩,
      fun _ => ⟨old, _, rfl, rfl⟩⟩
    · exact List.forall_mem_singleton.mpr
        ((hruns.2 v List.mem_cons_self).extend (hD _ _ _ _ hin hs))
    · exact List.forall_mem_singleton.mpr (hentries.2 v List.mem_cons_self)
  · next hout =>
    split
    · next hin =>
      refine ⟨List.forall_mem_append.mpr ⟨hv.runs, ?_⟩,
        List.forall_mem_append.mpr ⟨hv.entries, ?_⟩, fun _ => ⟨vs, _, rfl, rfl⟩⟩
      · exact List.forall_mem_singleton.mpr (Visit.runs_enter t)
      · exact List.forall_mem_singleton.mpr (hP s i t o (eq_false_of_ne_true hout) hin hs)
    · next hout' => exact ⟨hv.runs, hv.entries, fun hin => absurd hin hout'⟩

/-- In every run the visits are runs of the endpoint. -/
theorem visiting_visited
    (hD : ∀ s i t o, inside s → M.step s i = some (t, o) → D.step s i = some (t, o))
    (hP : ∀ s i t o, inside s = false → inside t → M.step s i = some (t, o) → P t)
    (hs : inside s = false) (h : (M.visiting D inside).run (s, []) is = some ((t, vs), tr)) :
    Visited D inside P t vs := by
  refine run_invariant (P := fun u => Visited D inside P u.1 u.2) ?_ h ?_
  · intro u i u' o hv hst
    exact hv.step hD hP hst
  · exact ⟨by simp, by simp, by simp [hs]⟩

/-- What each step adds to its visit, it adds to all of them together. -/
theorem Visited.flatMap_step {α : Type*} {f : Visit σ ι ω κ π → List α} {x : List α}
    (hv : Visited D inside P s vs)
    (hf : ∀ v : Visit σ ι ω κ π, inside s → v.record.state = s → f (v.extend D i t o) = f v ++ x)
    (hn : f (.enter t) = []) (hx : inside s = false → x = [])
    (h : (M.visiting D inside).step (s, vs) i = some ((t, vs'), o)) :
    vs'.flatMap f = vs.flatMap f ++ x := by
  obtain ⟨-, rfl⟩ := step_visiting.mp h
  split
  · next hin =>
    obtain ⟨old, v, rfl, hstate⟩ := hv.last hin
    rw [List.modifyLast_concat]
    simp [hf v hin hstate]
  · next hout =>
    rw [hx (eq_false_of_ne_true hout), List.append_nil]
    split
    · simp [hn]
    · rfl

/-- What the visits have read is part of what the machine has read. -/
theorem visiting_inputs
    (hD : ∀ s i t o, inside s → M.step s i = some (t, o) → D.step s i = some (t, o))
    (hs : inside s = false) (h : (M.visiting D inside).run (s, []) is = some ((t, vs), tr)) :
    (vs.flatMap (·.inputs)).Sublist is := by
  refine run_induction (P := fun is _ u => (u.2.flatMap (·.inputs)).Sublist is) ?_ ?_ h
  · exact List.Sublist.refl _
  · rintro is tr ⟨m, us⟩ i ⟨m', us'⟩ o hr ih hst
    have hv : Visited D inside (fun _ => True) m us :=
      visiting_visited hD (fun _ _ _ _ _ _ _ => trivial) hs hr
    have hnext : us'.flatMap (·.inputs) =
        us.flatMap (·.inputs) ++ if inside m then [i] else [] := by
      refine hv.flatMap_step ?_ rfl ?_ hst
      · intro v hin _
        rw [if_pos hin, Visit.extend]
      · intro hout
        simp [hout]
    rw [hnext]
    split
    · exact ih.append (List.Sublist.refl _)
    · rw [List.append_nil]
      exact ih.trans (List.sublist_append_left _ _)

end Mealy

end Visits

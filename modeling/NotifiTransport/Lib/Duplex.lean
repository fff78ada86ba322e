import NotifiTransport.Lib.Mealy

/-! # Two machines with a channel each way

A step of an endpoint seals letters for its peer and opens packets that it was given; the packets
of a letter are opened one by one. Two endpoints take their steps in any order, and nothing is
assumed of what they are given, except that a packet which is opened is the next one that the
peer has sealed. Then what either side has opened is a prefix of what the other one has sealed.
-/

/-- A machine with the letters that a step seals and the packets that it opens. -/
structure Endpoint (σ ι ω κ π : Type*) extends Mealy σ ι ω where
  seals : σ → ι → List κ
  opens : σ → ι → List π

/-- The state of an endpoint with all it has sealed and opened. -/
structure Recorded (σ κ π : Type*) where
  state : σ
  sealed : List κ
  opened : List π

/-- Nothing has been sealed or opened yet. -/
def Recorded.fresh {σ κ π : Type*} (s : σ) : Recorded σ κ π := ⟨s, [], []⟩

namespace Endpoint

variable {σ ι ω κ π : Type*}

def recorded (E : Endpoint σ ι ω κ π) : Mealy (Recorded σ κ π) ι ω where
  step s i := (E.step s.state i).map fun r =>
    (⟨r.1, s.sealed ++ E.seals s.state i, s.opened ++ E.opens s.state i⟩, r.2)

variable {E : Endpoint σ ι ω κ π} {s t : Recorded σ κ π} {i : ι} {is : List ι} {o tr : List ω}

theorem recorded_step : E.recorded.step s i = some (t, o) ↔
    E.step s.state i = some (t.state, o) ∧ t.sealed = s.sealed ++ E.seals s.state i ∧
      t.opened = s.opened ++ E.opens s.state i := by
  obtain ⟨t, sealed, opened⟩ := t
  simp only [recorded, Option.map_eq_some_iff, Prod.exists, Prod.mk.injEq, Recorded.mk.injEq]
  constructor
  · rintro ⟨_, _, hs, ⟨rfl, rfl, rfl⟩, rfl⟩
    exact ⟨hs, rfl, rfl⟩
  · rintro ⟨hs, rfl, rfl⟩
    exact ⟨t, o, hs, ⟨rfl, rfl, rfl⟩, rfl⟩

/-- The record does not interfere. -/
theorem recorded_run (h : E.recorded.run s is = some (t, tr)) :
    E.run s.state is = some (t.state, tr) := by
  refine Mealy.run_induction (P := fun is tr t => E.run s.state is = some (t.state, tr)) rfl ?_ h
  intro is tr m i m' o _ hr hs
  exact Mealy.run_concat.mpr ⟨m.state, tr, o, hr, (recorded_step.mp hs).1, rfl⟩

/-- What a step writes and leaves to be written comes from what was left before and from the letters
that it seals. So all that a run writes comes from its letters, in their order and at most once. -/
theorem recorded_written {α : Type*} (unwritten : σ → List α) (written : ω → Option α)
    (parts : κ → List α)
    (step : ∀ s i t o, E.step s i = some (t, o) →
      (o.filterMap written ++ unwritten t).Sublist (unwritten s ++ (E.seals s i).flatMap parts))
    (hs : unwritten s.state = []) (hn : s.sealed = [])
    (h : E.recorded.run s is = some (t, tr)) :
    (tr.filterMap written ++ unwritten t.state).Sublist (t.sealed.flatMap parts) := by
  refine Mealy.run_induction (P := fun _ tr t =>
    (tr.filterMap written ++ unwritten t.state).Sublist (t.sealed.flatMap parts)) ?_ ?_ h
  · rw [hs, hn]
    exact List.Sublist.refl _
  · rintro is tr m i t o - ih hst
    obtain ⟨hst, hsealed, -⟩ := recorded_step.mp hst
    rw [hsealed, List.flatMap_append, List.filterMap_append, List.append_assoc]
    have hnext := ((List.Sublist.refl (tr.filterMap written)).append (step _ _ _ _ hst))
    rw [← List.append_assoc (tr.filterMap written) (unwritten m.state)] at hnext
    exact hnext.trans (ih.append (List.Sublist.refl _))

section Simulation

variable {σ' ι' ω' : Type*} {D : Endpoint σ' ι' ω' κ π} {u v : Recorded σ' κ π} {js : List ι'}
  {tr' : List ω'}

/-- `f` forgets the parts of the state that the channel does not see. A step of the larger
endpoint is a run of the smaller one with the same letters and packets, and `b` tells what there is
to observe of the inputs of that run. -/
theorem recorded_simulation {α : Type*} (f : σ' → σ) (g : ω' → Option ω) (a : ι → α)
    (b : ι' → List α)
    (step : ∀ u i v o, D.recorded.step u i = some (v, o) → ∃ is, is.map a = b i ∧
      E.recorded.run ⟨f u.state, u.sealed, u.opened⟩ is =
        some (⟨f v.state, v.sealed, v.opened⟩, o.filterMap g))
    (h : D.recorded.run u js = some (v, tr')) :
    ∃ is, is.map a = js.flatMap b ∧ E.recorded.run ⟨f u.state, u.sealed, u.opened⟩ is =
      some (⟨f v.state, v.sealed, v.opened⟩, tr'.filterMap g) := by
  refine Mealy.run_induction (P := fun js tr' v => ∃ is, is.map a = js.flatMap b ∧
    E.recorded.run ⟨f u.state, u.sealed, u.opened⟩ is =
      some (⟨f v.state, v.sealed, v.opened⟩, tr'.filterMap g)) ⟨[], rfl, rfl⟩ ?_ h
  rintro js tr' m i v o - ⟨is, hi, hr⟩ hs
  obtain ⟨ks, hk, hk'⟩ := step m i v o hs
  refine ⟨is ++ ks, ?_, Mealy.run_append.mpr ⟨_, _, _, hr, hk', List.filterMap_append⟩⟩
  rw [List.map_append, List.flatMap_append, hi, hk, List.flatMap_singleton]

end Simulation

end Endpoint

section Sides

variable {α β : Type*}

/-- What one side sees of a list that concerns both. -/
def lefts (l : List (α ⊕ β)) : List α := l.filterMap Sum.getLeft?

def rights (l : List (α ⊕ β)) : List β := l.filterMap Sum.getRight?

@[simp] theorem lefts_append (l l' : List (α ⊕ β)) : lefts (l ++ l') = lefts l ++ lefts l' :=
  List.filterMap_append

@[simp] theorem rights_append (l l' : List (α ⊕ β)) : rights (l ++ l') = rights l ++ rights l' :=
  List.filterMap_append

theorem mem_lefts {a : α} {l : List (α ⊕ β)} : a ∈ lefts l ↔ .inl a ∈ l := by
  simp [lefts, List.mem_filterMap]

theorem mem_rights {b : β} {l : List (α ⊕ β)} : b ∈ rights l ↔ .inr b ∈ l := by
  simp [rights, List.mem_filterMap]

@[simp] theorem lefts_map_inl (l : List α) : lefts (l.map .inl : List (α ⊕ β)) = l := by
  simp [lefts, List.filterMap_map, Function.comp_def]

@[simp] theorem lefts_map_inr (l : List β) : lefts (l.map .inr : List (α ⊕ β)) = [] := by
  simp [lefts, List.filterMap_map, Function.comp_def]

@[simp] theorem rights_map_inl (l : List α) : rights (l.map .inl : List (α ⊕ β)) = [] := by
  simp [rights, List.filterMap_map, Function.comp_def]

@[simp] theorem rights_map_inr (l : List β) : rights (l.map .inr : List (α ⊕ β)) = l := by
  simp [rights, List.filterMap_map, Function.comp_def]

end Sides

section Duplex

variable {σ ι ω κ σ' ι' ω' κ' π : Type*}

/-- Both endpoints, which step independently of each other. -/
def duplex (E : Endpoint σ ι ω κ π) (F : Endpoint σ' ι' ω' κ' π) :
    Mealy (Recorded σ κ π × Recorded σ' κ' π) (ι ⊕ ι') (ω ⊕ ω') where
  step s
    | .inl i => (E.recorded.step s.1 i).map fun r => ((r.1, s.2), r.2.map .inl)
    | .inr i => (F.recorded.step s.2 i).map fun r => ((s.1, r.1), r.2.map .inr)

/-- What an endpoint with this record opens in a step is next among the packets of the letters
that its peer has sealed. -/
def OpensNext {σ ι ω κ κ' π : Type*} (E : Endpoint σ ι ω κ π) (packets : κ' → List π)
    (s : Recorded σ κ π) (sealed : List κ') (i : ι) : Prop :=
  s.opened ++ E.opens s.state i <+: sealed.flatMap packets

/-- Neither side opens anything else. -/
def Genuine (E : Endpoint σ ι ω κ π) (F : Endpoint σ' ι' ω' κ' π) (packets : κ → List π)
    (packets' : κ' → List π) (s : Recorded σ κ π × Recorded σ' κ' π) : ι ⊕ ι' → Prop
  | .inl i => OpensNext E packets' s.1 s.2.sealed i
  | .inr i => OpensNext F packets s.2 s.1.sealed i

instance [DecidableEq π] (E : Endpoint σ ι ω κ π) (F : Endpoint σ' ι' ω' κ' π)
    (packets : κ → List π) (packets' : κ' → List π) (s : Recorded σ κ π × Recorded σ' κ' π)
    (e : ι ⊕ ι') : Decidable (Genuine E F packets packets' s e) := by
  cases e <;> exact inferInstanceAs (Decidable (_ <+: _))

variable {E : Endpoint σ ι ω κ π} {F : Endpoint σ' ι' ω' κ' π} {packets : κ → List π}
  {packets' : κ' → List π} {s t : Recorded σ κ π × Recorded σ' κ' π} {es : List (ι ⊕ ι')}
  {tr : List (ω ⊕ ω')}

/-- Each side has a run of its own. -/
theorem duplex_run (h : (duplex E F).run s es = some (t, tr)) :
    E.recorded.run s.1 (lefts es) = some (t.1, lefts tr) ∧
      F.recorded.run s.2 (rights es) = some (t.2, rights tr) := by
  refine Mealy.run_induction (P := fun es tr t =>
    E.recorded.run s.1 (lefts es) = some (t.1, lefts tr) ∧
      F.recorded.run s.2 (rights es) = some (t.2, rights tr)) ⟨rfl, rfl⟩ ?_ h
  rintro es tr ⟨m, n⟩ e s' o - ⟨hl, hr⟩ hs
  rw [lefts_append, rights_append, lefts_append, rights_append]
  cases e with
  | inl i =>
    obtain ⟨⟨m', o'⟩, hm, ho⟩ := Option.map_eq_some_iff.mp hs
    cases ho
    rw [lefts_map_inl, rights_map_inl, List.append_nil]
    constructor
    · exact Mealy.run_concat.mpr ⟨m, _, o', hl, hm, rfl⟩
    · exact (congrArg _ (List.append_nil _)).trans hr
  | inr i =>
    obtain ⟨⟨n', o'⟩, hn, ho⟩ := Option.map_eq_some_iff.mp hs
    cases ho
    rw [lefts_map_inr, rights_map_inr, List.append_nil]
    constructor
    · exact (congrArg _ (List.append_nil _)).trans hl
    · exact Mealy.run_concat.mpr ⟨n, _, o', hr, hn, rfl⟩

/-- In a genuine run each side has opened a prefix of the packets that the other one has sealed. -/
theorem duplex_opened (h : (duplex E F).run s es = some (t, tr))
    (hG : (duplex E F).Along (Genuine E F packets packets') s es)
    (hl : s.1.opened <+: s.2.sealed.flatMap packets')
    (hr : s.2.opened <+: s.1.sealed.flatMap packets) :
    t.1.opened <+: t.2.sealed.flatMap packets' ∧ t.2.opened <+: t.1.sealed.flatMap packets := by
  refine Mealy.run_induction_along (P := fun _ _ t => t.1.opened <+: t.2.sealed.flatMap packets' ∧
    t.2.opened <+: t.1.sealed.flatMap packets) ⟨hl, hr⟩ ?_ h hG
  rintro es tr ⟨m, n⟩ e s' o - ⟨hl, hr⟩ hg hs
  cases e with
  | inl i =>
    obtain ⟨⟨m', o'⟩, hm, ho⟩ := Option.map_eq_some_iff.mp hs
    cases ho
    obtain ⟨-, hsealed, hopened⟩ := Endpoint.recorded_step.mp hm
    dsimp only at hl hr ⊢
    rw [hsealed, hopened, List.flatMap_append]
    exact ⟨hg, hr.trans (List.prefix_append _ _)⟩
  | inr i =>
    obtain ⟨⟨n', o'⟩, hn, ho⟩ := Option.map_eq_some_iff.mp hs
    cases ho
    obtain ⟨-, hsealed, hopened⟩ := Endpoint.recorded_step.mp hn
    dsimp only at hl hr ⊢
    rw [hsealed, hopened, List.flatMap_append]
    exact ⟨hl.trans (List.prefix_append _ _), hg⟩

end Duplex

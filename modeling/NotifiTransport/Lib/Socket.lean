import NotifiTransport.Lib.Duplex

/-! # Two machines on a socket

The letters are messages here: what a machine writes to its socket, and what it reads from it. On a
reliable socket each end reads the messages of the other end in their order, so what is on its way
is what has been written and not read. A relation between the states of the two ends and what is
on its way is an invariant if each end keeps it.
-/

/-- A machine on a socket. -/
def Mealy.onSocket {σ ι ω μ : Type*} (M : Mealy σ ι ω) (writes : ω → Option μ)
    (reads : ι → Option μ) : Endpoint σ ι ω μ μ where
  toMealy := M
  seals s i := (M.step s i).toList.flatMap fun r => r.2.filterMap writes
  opens _ i := (reads i).toList

theorem Mealy.seals_onSocket {σ ι ω μ : Type*} {M : Mealy σ ι ω} {writes : ω → Option μ}
    {reads : ι → Option μ} {s t : σ} {i : ι} {o : List ω} (h : M.step s i = some (t, o)) :
    (M.onSocket writes reads).seals s i = o.filterMap writes := by
  simp [onSocket, h]

section Reliable

variable {σ ι ω σ' ι' ω' μ : Type*}

/-- Each end reads what comes next, and no operation of either end fails. -/
def Reliable (E : Endpoint σ ι ω μ μ) (F : Endpoint σ' ι' ω' μ μ) (ok : ι ⊕ ι' → Prop)
    (s : Recorded σ μ μ × Recorded σ' μ μ) (e : ι ⊕ ι') : Prop :=
  ok e ∧ Genuine E F ([·]) ([·]) s e

instance [DecidableEq μ] (E : Endpoint σ ι ω μ μ) (F : Endpoint σ' ι' ω' μ μ)
    (ok : ι ⊕ ι' → Prop) [DecidablePred ok] (s : Recorded σ μ μ × Recorded σ' μ μ) (e : ι ⊕ ι') :
    Decidable (Reliable E F ok s e) :=
  inferInstanceAs (Decidable (_ ∧ _))

/-- The messages on their way, from the left end to the right one and back. -/
structure InFlight (s : Recorded σ μ μ × Recorded σ' μ μ) (up down : List μ) : Prop where
  up : s.1.sealed = s.2.opened ++ up
  down : s.2.sealed = s.1.opened ++ down

variable {E : Endpoint σ ι ω μ μ} {F : Endpoint σ' ι' ω' μ μ} {ok : ι ⊕ ι' → Prop}
  {s t : Recorded σ μ μ × Recorded σ' μ μ} {es : List (ι ⊕ ι')} {tr o : List (ω ⊕ ω')}
  {up down : List μ} {i : ι} {i' : ι'}

theorem inFlight_fresh (a : σ) (b : σ') :
    InFlight (Recorded.fresh a, Recorded.fresh b) ([] : List μ) [] :=
  ⟨rfl, rfl⟩

/-- What is read next is first among what is on its way. -/
theorem InFlight.reads_left (h : InFlight s up down) :
    OpensNext E ([·]) s.1 s.2.sealed i ↔ E.opens s.1.state i <+: down := by
  rw [OpensNext, List.flatMap_singleton', h.down, List.prefix_append_right_inj]

theorem InFlight.reads_right (h : InFlight s up down) :
    OpensNext F ([·]) s.2 s.1.sealed i' ↔ F.opens s.2.state i' <+: up := by
  rw [OpensNext, List.flatMap_singleton', h.up, List.prefix_append_right_inj]

theorem InFlight.left (h : InFlight s up down)
    (hs : (duplex E F).step s (.inl i) = some (t, o))
    (hr : OpensNext E ([·]) s.1 s.2.sealed i) :
    t.2 = s.2 ∧ E.step s.1.state i = some (t.1.state, lefts o) ∧ ∃ down',
      down = E.opens s.1.state i ++ down' ∧ InFlight t (up ++ E.seals s.1.state i) down' := by
  obtain ⟨⟨m, o'⟩, hm, ho⟩ := Option.map_eq_some_iff.mp hs
  cases ho
  obtain ⟨hst, hsealed, hopened⟩ := Endpoint.recorded_step.mp hm
  obtain ⟨down', rfl⟩ := h.reads_left.mp hr
  refine ⟨rfl, by rwa [lefts_map_inl], down', rfl, ?_, ?_⟩
  · rw [hsealed, h.up, List.append_assoc]
  · rw [hopened, h.down, List.append_assoc]

theorem InFlight.right (h : InFlight s up down)
    (hs : (duplex E F).step s (.inr i') = some (t, o))
    (hr : OpensNext F ([·]) s.2 s.1.sealed i') :
    t.1 = s.1 ∧ F.step s.2.state i' = some (t.2.state, rights o) ∧ ∃ up',
      up = F.opens s.2.state i' ++ up' ∧ InFlight t up' (down ++ F.seals s.2.state i') := by
  obtain ⟨⟨m, o'⟩, hm, ho⟩ := Option.map_eq_some_iff.mp hs
  cases ho
  obtain ⟨hst, hsealed, hopened⟩ := Endpoint.recorded_step.mp hm
  obtain ⟨up', rfl⟩ := h.reads_right.mp hr
  refine ⟨rfl, by rwa [rights_map_inr], up', rfl, ?_, ?_⟩
  · rw [hopened, h.up, List.append_assoc]
  · rw [hsealed, h.down, List.append_assoc]

/-- A relation between the two ends and what is on its way, which each end keeps. -/
structure KeptBy (E : Endpoint σ ι ω μ μ) (F : Endpoint σ' ι' ω' μ μ) (ok : ι ⊕ ι' → Prop)
    (R : σ → List μ → σ' → List μ → Prop) : Prop where
  left : ∀ a up b down i a' o, R a up b (E.opens a i ++ down) → ok (.inl i) →
    E.step a i = some (a', o) → R a' (up ++ E.seals a i) b down
  right : ∀ a up b down i b' o, R a (F.opens b i ++ up) b down → ok (.inr i) →
    F.step b i = some (b', o) → R a up b' (down ++ F.seals b i)

theorem KeptBy.step {R : σ → List μ → σ' → List μ → Prop} (hR : KeptBy E F ok R) {e : ι ⊕ ι'}
    (h : InFlight s up down) (hs : R s.1.state up s.2.state down) (hG : Reliable E F ok s e)
    (hst : (duplex E F).step s e = some (t, o)) :
    ∃ up' down', InFlight t up' down' ∧ R t.1.state up' t.2.state down' := by
  obtain ⟨hok, hnext⟩ := hG
  cases e with
  | inl i =>
    obtain ⟨ht, hstep, down', rfl, h'⟩ := h.left hst hnext
    exact ⟨_, down', h', ht ▸ hR.left _ _ _ _ i _ _ hs hok hstep⟩
  | inr i =>
    obtain ⟨ht, hstep, up', rfl, h'⟩ := h.right hst hnext
    exact ⟨up', _, h', ht ▸ hR.right _ _ _ _ i _ _ hs hok hstep⟩

/-- The rule for runs on a reliable socket. -/
theorem KeptBy.run {R : σ → List μ → σ' → List μ → Prop} (hR : KeptBy E F ok R) {a : σ} {b : σ'}
    (hab : R a [] b []) (h : (duplex E F).run (.fresh a, .fresh b) es = some (t, tr))
    (hG : (duplex E F).Along (Reliable E F ok) (.fresh a, .fresh b) es) :
    ∃ up down, InFlight t up down ∧ R t.1.state up t.2.state down := by
  refine Mealy.run_induction_along
    (P := fun _ _ t => ∃ up down, InFlight t up down ∧ R t.1.state up t.2.state down)
    ⟨[], [], inFlight_fresh a b, hab⟩ ?_ h hG
  rintro is tr m e s' o - ⟨up, down, hf, hr⟩ hg hs
  exact hR.step hf hr hg hs

end Reliable

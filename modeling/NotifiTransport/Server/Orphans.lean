import NotifiTransport.Server.Handle

/-! # Sessions without handles

The drop that releases the last reference closes the session if it was alone when it tested
the reference count. Two drops that test before either of them releases leave a session
behind that nobody can close.
-/

namespace NotifiTransport

namespace Served

variable {snow : Snow} {pc : Postcard} {cfg : WsServerConfig} {p p' t : Served snow}
  {i : ServedInput} {is : List ServedInput} {o tr : List ServedEffect}

/-- No handle remains. -/
def Orphan (p : Served snow) : Prop := p.handles = 0 ∧ p.dropping = []

/-- A drop that offers its `Close` finds room for it. -/
def Room (cfg : WsServerConfig) (p : Served snow) (i : ServedInput) : Prop :=
  ∀ k, i = .offer k → p.queue.length < cfg.bufferSize

/-- The drop that releases the last reference has counted one handle in its test, its own, or
the loop is over anyway. -/
def LastAlone (p : Served snow) (i : ServedInput) : Prop :=
  ∀ k d, i = .release k → p.handles = 0 → p.dropping = [d] → d = .offered ∨ p.ended = true

theorem trySend_counts (c : SessionCmd) :
    (p.trySend cfg c).1.handles = p.handles ∧ (p.trySend cfg c).1.dropping = p.dropping := by
  unfold trySend
  split
  · exact ⟨rfl, rfl⟩
  · split <;> exact ⟨rfl, rfl⟩

/-- What a step can do to the handles. -/
theorem step_counts (h : p.step pc cfg i = some (p', o)) :
    (p'.handles = p.handles ∧ p'.dropping = p.dropping) ∨
      (i = .clone ∧ 0 < p.handles ∧ p' = { p with handles := p.handles + 1 }) ∨
      (i = .test ∧ 0 < p.handles ∧ p' = { p with
        handles := p.handles - 1
        dropping := p.dropping ++ [.tested p.strongCount] }) ∨
      (∃ k, i = .offer k ∧ p.dropping[k]? = some (.tested 1) ∧
        p' = { p.close cfg with dropping := p.dropping.set k .offered }) ∨
      ∃ k, i = .release k ∧ k < p.dropping.length ∧ p.dropping[k]? ≠ some (.tested 1) ∧
        p' = { p with dropping := p.dropping.eraseIdx k } := by
  cases i with
  | loop now j =>
    obtain ⟨queue, r, -, -, rfl, -⟩ := loop_eq_some h
    exact Or.inl ⟨rfl, rfl⟩
  | respond | pushEvent | close =>
    simp only [step, Option.ite_none_left_eq_some, Option.some.injEq, Prod.mk.injEq] at h
    obtain ⟨-, rfl, -⟩ := h
    exact Or.inl (trySend_counts _)
  | clone =>
    simp only [step, Option.ite_none_left_eq_some, Option.some.injEq, Prod.mk.injEq] at h
    obtain ⟨hh, rfl, -⟩ := h
    exact Or.inr (Or.inl ⟨rfl, Nat.pos_of_ne_zero hh, rfl⟩)
  | test =>
    simp only [step, Option.ite_none_left_eq_some, Option.some.injEq, Prod.mk.injEq] at h
    obtain ⟨hh, rfl, -⟩ := h
    exact Or.inr (Or.inr (Or.inl ⟨rfl, Nat.pos_of_ne_zero hh, rfl⟩))
  | offer k =>
    simp only [step, Option.ite_none_right_eq_some, Option.some.injEq, Prod.mk.injEq] at h
    obtain ⟨hk, rfl, -⟩ := h
    exact Or.inr (Or.inr (Or.inr (Or.inl ⟨k, rfl, hk, rfl⟩)))
  | release k =>
    simp only [step, Option.ite_none_right_eq_some, Option.some.injEq, Prod.mk.injEq] at h
    obtain ⟨⟨hlt, hk⟩, rfl, -⟩ := h
    exact Or.inr (Or.inr (Or.inr (Or.inr ⟨k, rfl, hlt, hk, rfl⟩)))

/-- A drop that has counted one handle is alone. -/
structure Counted (p : Served snow) : Prop where
  tested : .tested 1 ∈ p.dropping → p.handles = 0 ∧ p.dropping = [.tested 1]
  offered : .offered ∈ p.dropping → p.handles = 0 ∧ p.dropping = [.offered]

/-- The only drop in progress is the one at its place. -/
theorem getElem?_of_alone {d e : DropStage} {ds : List DropStage} {k : ℕ} (h : ds = [d])
    (hk : ds[k]? = some e) : k = 0 ∧ e = d := by
  subst h
  cases k with
  | zero => exact ⟨rfl, (Option.some.inj hk).symm⟩
  | succ k => cases hk

theorem eraseIdx_of_alone {d : DropStage} {ds : List DropStage} {k : ℕ} (h : ds = [d])
    (hk : k < ds.length) : ds.eraseIdx k = [] := by
  subst h
  obtain rfl : k = 0 := Nat.lt_one_iff.mp hk
  rfl

theorem alone_of_eraseIdx {ds : List DropStage} {k : ℕ} (hk : k < ds.length)
    (h : ds.eraseIdx k = []) : ∃ d, ds = [d] := by
  have hlen : (ds.eraseIdx k).length = 0 := by rw [h, List.length_nil]
  rw [List.length_eraseIdx_of_lt hk] at hlen
  exact List.length_eq_one_iff.mp (by omega)

theorem counted_start (now : ℕ) (noise : NoiseSession snow) : Counted (start cfg now noise) where
  tested := fun h => absurd h List.not_mem_nil
  offered := fun h => absurd h List.not_mem_nil

theorem Counted.test (hc : Counted p) (hh : 0 < p.handles) : Counted { p with
    handles := p.handles - 1
    dropping := p.dropping ++ [.tested p.strongCount] } := by
  constructor
  · intro h
    rcases List.mem_append.mp h with h | h
    · exact absurd (hc.tested h).1 hh.ne'
    · -- the count is 1, so this handle was the last and no drop was in progress
      have h1 : p.strongCount = 1 := (DropStage.tested.inj (List.mem_singleton.mp h)).symm
      have hsum : p.handles + p.dropping.length = 1 := h1
      have hd : p.dropping = [] := List.eq_nil_of_length_eq_zero (by omega)
      exact ⟨by dsimp only; omega, by rw [h1, hd]; rfl⟩
  · intro h
    rcases List.mem_append.mp h with h | h
    · exact absurd (hc.offered h).1 hh.ne'
    · simp at h

theorem step_counted (h : p.step pc cfg i = some (p', o)) (hc : Counted p) : Counted p' := by
  rcases step_counts h with ⟨hh, hd⟩ | ⟨-, hh, rfl⟩ | ⟨-, hh, rfl⟩ | ⟨k, -, hk, rfl⟩ |
    ⟨k, -, hlt, hk, rfl⟩
  · constructor
    · rw [hh, hd]
      exact hc.tested
    · rw [hh, hd]
      exact hc.offered
  · constructor
    · exact fun h => absurd (hc.tested h).1 hh.ne'
    · exact fun h => absurd (hc.offered h).1 hh.ne'
  · exact hc.test hh
  · obtain ⟨h0, hd⟩ := hc.tested (List.mem_of_getElem? hk)
    obtain ⟨rfl, -⟩ := getElem?_of_alone hd hk
    have hh : (p.close cfg).handles = 0 := (trySend_counts _).1.trans h0
    constructor
    · intro h
      rw [hd] at h
      cases h with
      | tail _ h => cases h
    · exact fun _ => ⟨hh, by rw [hd]; rfl⟩
  · constructor
    · intro h
      have hd := (hc.tested (List.mem_of_mem_eraseIdx h)).2
      rw [eraseIdx_of_alone hd hlt] at h
      cases h
    · intro h
      have hd := (hc.offered (List.mem_of_mem_eraseIdx h)).2
      rw [eraseIdx_of_alone hd hlt] at h
      cases h

/-- `Close` is in the channel or the loop is over. -/
def Requested (p : Served snow) : Prop := .close ∈ p.queue ∨ p.ended = true

theorem step_requested (h : p.step pc cfg i = some (p', o)) (hr : Requested p) :
    Requested p' := by
  rcases hr with hc | he
  · obtain ⟨pre, post, hq⟩ := List.append_of_mem hc
    rcases step_behind h hq with he | ⟨pre', post', hq', -⟩
    · exact Or.inr he
    · exact Or.inl (by rw [hq']; simp)
  · exact Or.inr (step_ended h he)

/-- `close` succeeds while there is room. -/
theorem requested_close (hroom : p.queue.length < cfg.bufferSize) : Requested (p.close cfg) := by
  rcases he : p.ended with _ | _
  · apply Or.inl
    rw [close, trySend_live .close he, if_pos hroom]
    simp
  · apply Or.inr
    unfold ended close
    rw [trySend_session]
    exact he

/-- A drop that was alone has closed the session, and no session is an orphan otherwise. -/
structure Answered (p : Served snow) : Prop extends Counted p where
  requested : .offered ∈ p.dropping ∨ Orphan p → Requested p

theorem step_answered (h : p.step pc cfg i = some (p', o)) (hroom : Room cfg p i)
    (hlast : LastAlone p i) (ha : Answered p) : Answered p' := by
  refine ⟨step_counted h ha.toCounted, ?_⟩
  rcases step_counts h with ⟨hh, hd⟩ | ⟨-, hh, rfl⟩ | ⟨-, hh, rfl⟩ | ⟨k, rfl, hk, rfl⟩ |
    ⟨k, rfl, hlt, hk, rfl⟩
  · intro hp
    unfold Orphan at hp
    rw [hh, hd] at hp
    exact step_requested h (ha.requested hp)
  · rintro (hd | ⟨h0, -⟩)
    · exact absurd (ha.offered hd).1 hh.ne'
    · cases h0
  · rintro (hd | ⟨-, hd⟩)
    · rcases List.mem_append.mp hd with hd | hd
      · exact absurd (ha.offered hd).1 hh.ne'
      · simp at hd
    · exact absurd hd (by simp)
  · intro _
    exact requested_close (p := p) (hroom k rfl)
  · rintro (hd | ⟨h0, hd⟩)
    · have hd' := (ha.offered (List.mem_of_mem_eraseIdx hd)).2
      rw [eraseIdx_of_alone hd' hlt] at hd
      cases hd
    · obtain ⟨d, hd'⟩ := alone_of_eraseIdx hlt hd
      rcases hlast k d rfl h0 hd' with rfl | he
      · exact ha.requested (Or.inl (by rw [hd']; simp))
      · exact Or.inr he

theorem answered_start (now : ℕ) (noise : NoiseSession snow) :
    Answered (start cfg now noise) := by
  refine ⟨counted_start now noise, ?_⟩
  rintro (hd | ⟨h0, -⟩)
  · cases hd
  · cases h0

/-- Without a call of `close`, the `Close` in the channel is the one of a drop. -/
structure Unasked (p : Served snow) : Prop extends Counted p where
  dropped : .close ∈ p.queue → p.handles = 0 ∧ (p.dropping = [] ∨ p.dropping = [.offered])

theorem unasked_start (now : ℕ) (noise : NoiseSession snow) : Unasked (start cfg now noise) :=
  ⟨counted_start now noise, fun h => absurd h List.not_mem_nil⟩

theorem mem_of_received {queue queue' : List SessionCmd} {j : SessionInput} {c : SessionCmd}
    (h : received queue j = some queue') (hc : c ∈ queue') : c ∈ queue := by
  by_cases hj : ∃ c', j = .cmd c'
  · obtain ⟨c', rfl⟩ := hj
    rw [received_cmd h]
    exact List.mem_cons_of_mem _ hc
  · push Not at hj
    rwa [received_other hj h] at hc

theorem close_mem_of_trySend {f : Frame} {priority : MessagePriority}
    (hc : .close ∈ (p.trySend cfg (.send f priority)).1.queue) : .close ∈ p.queue := by
  rcases p.trySend_queue cfg (.send f priority) with hq | hq
  · rwa [hq] at hc
  · rw [hq] at hc
    rcases List.mem_append.mp hc with hc | hc
    · exact hc
    · simp at hc

/-- Only `close` and the offer of a drop put a `Close` in the channel. -/
theorem close_mem_of_step (h : p.step pc cfg i = some (p', o)) (hi : i ≠ .close)
    (hk : ∀ k, i ≠ .offer k) (hc : .close ∈ p'.queue) : .close ∈ p.queue := by
  cases i with
  | loop now j =>
    obtain ⟨queue, r, hq, -, rfl, -⟩ := loop_eq_some h
    dsimp only at hc
    split at hc
    · exact mem_of_received hq hc
    · cases hc
  | respond | pushEvent =>
    simp only [step, Option.ite_none_left_eq_some, Option.some.injEq, Prod.mk.injEq] at h
    obtain ⟨-, rfl, -⟩ := h
    exact close_mem_of_trySend hc
  | close => exact absurd rfl hi
  | clone | test =>
    simp only [step, Option.ite_none_left_eq_some, Option.some.injEq, Prod.mk.injEq] at h
    obtain ⟨-, rfl, -⟩ := h
    exact hc
  | offer k => exact absurd rfl (hk k)
  | release k =>
    simp only [step, Option.ite_none_right_eq_some, Option.some.injEq, Prod.mk.injEq] at h
    obtain ⟨-, rfl, -⟩ := h
    exact hc

theorem step_unasked (h : p.step pc cfg i = some (p', o)) (hi : i ≠ .close) (hu : Unasked p) :
    Unasked p' := by
  refine ⟨step_counted h hu.toCounted, fun hc => ?_⟩
  by_cases hk : ∃ k, i = .offer k
  · obtain ⟨k, rfl⟩ := hk
    simp only [step, Option.ite_none_right_eq_some, Option.some.injEq, Prod.mk.injEq] at h
    obtain ⟨hk, rfl, -⟩ := h
    obtain ⟨h0, hd⟩ := hu.tested (List.mem_of_getElem? hk)
    obtain ⟨rfl, -⟩ := getElem?_of_alone hd hk
    exact ⟨(trySend_counts _).1.trans h0, Or.inr (by rw [hd]; rfl)⟩
  · push Not at hk
    obtain ⟨h0, hd⟩ := hu.dropped (close_mem_of_step h hi hk hc)
    rcases step_counts h with ⟨hh, hd'⟩ | ⟨-, hh, -⟩ | ⟨-, hh, -⟩ | ⟨k, rfl, -⟩ |
      ⟨k, -, hlt, -, rfl⟩
    · rw [hh, hd']
      exact ⟨h0, hd⟩
    · exact absurd h0 hh.ne'
    · exact absurd h0 hh.ne'
    · exact absurd rfl (hk k)
    · refine ⟨h0, Or.inl ?_⟩
      rcases hd with hd | hd
      · rw [hd] at hlt
        cases hlt
      · exact eraseIdx_of_alone hd hlt

variable (pc cfg) in
/-- An owner has called `close` on these inputs while there was room. -/
def ClosedOn (p : Served snow) (is : List ServedInput) : Prop :=
  ∃ pre post, is = pre ++ .close :: post ∧
    ∀ m u, (machine pc cfg snow).run p pre = some (m, u) → m.queue.length < cfg.bufferSize

theorem trySend_full (c : SessionCmd) (h : ¬ p.queue.length < cfg.bufferSize) :
    (p.trySend cfg c).1 = p := by
  simp only [trySend, if_neg h]
  split <;> rfl

/-- In every state of the run a session without handles terminates. -/
def OrphansTerminate (pc : Postcard) (cfg : WsServerConfig) (p : Served snow)
    (is : List ServedInput) : Prop :=
  ∀ pre post, is = pre ++ post → ∀ m u, (machine pc cfg snow).run p pre = some (m, u) →
    Orphan m → Terminating pc cfg m

section

variable {now : ℕ} {noise : NoiseSession snow}

theorem run_answered (h : (machine pc cfg snow).run (start cfg now noise) is = some (t, tr))
    (hroom : (machine pc cfg snow).Along (Room cfg) (start cfg now noise) is)
    (hlast : (machine pc cfg snow).Along LastAlone (start cfg now noise) is) : Answered t := by
  refine Mealy.run_induction_along (G := fun p i => Room cfg p i ∧ LastAlone p i)
    (P := fun _ _ p => Answered p) (answered_start now noise) ?_ h ?_
  · rintro _ _ p i p' o - ha ⟨hr, hl⟩ hs
    exact step_answered hs hr hl ha
  · intro pre i post hi m u hm
    exact ⟨hroom pre i post hi m u hm, hlast pre i post hi m u hm⟩

/-- Without a call of `close` that finds room, the `Close` in the channel is the one of a drop. -/
theorem run_unasked (h : (machine pc cfg snow).run (start cfg now noise) is = some (t, tr))
    (hc : ¬ ClosedOn pc cfg (start cfg now noise) is) : Unasked t := by
  refine Mealy.run_induction (P := fun is _ p => ¬ ClosedOn pc cfg (start cfg now noise) is →
    Unasked p) (fun _ => unasked_start now noise) ?_ h hc
  rintro is _ p i p' o hr hu hs hc
  have hp : Unasked p := by
    refine hu fun hclosed => hc ?_
    obtain ⟨pre, post, rfl, hroom⟩ := hclosed
    exact ⟨pre, post ++ [i], by simp, hroom⟩
  by_cases hi : i = .close
  · subst hi
    have hfull : ¬ p.queue.length < cfg.bufferSize := by
      refine fun hroom => hc ⟨is, [], rfl, ?_⟩
      intro m u hm
      rw [hr] at hm
      cases hm
      exact hroom
    simp only [machine, step, Option.ite_none_left_eq_some, Option.some.injEq,
      Prod.mk.injEq] at hs
    obtain ⟨-, rfl, -⟩ := hs
    rwa [close, trySend_full .close hfull]
  · exact step_unasked hs hi hp

/-- With room for the `Close` of a drop, a session without handles terminates in every run in
which the drop that releases the last reference was alone when it tested the count. When no
owner calls `close` itself, in no others. -/
theorem run_orphans_terminate
    (h : (machine pc cfg snow).run (start cfg now noise) is = some (t, tr))
    (hroom : (machine pc cfg snow).Along (Room cfg) (start cfg now noise) is) :
    ((machine pc cfg snow).Along LastAlone (start cfg now noise) is →
        OrphansTerminate pc cfg (start cfg now noise) is) ∧
      (.close ∉ is → OrphansTerminate pc cfg (start cfg now noise) is →
        (machine pc cfg snow).Along LastAlone (start cfg now noise) is) := by
  constructor
  · rintro hlast pre post rfl m u hm horphan
    exact terminating_iff.mpr ((run_answered hm hroom.left hlast.left).requested (Or.inr horphan))
  · rintro hc hall pre i post rfl m u hm k d rfl h0 hd
    obtain ⟨m', o, v, hs, -, -⟩ := Mealy.run_at h hm
    have hm' := Mealy.run_concat.mpr ⟨m, u, o, hm, hs, rfl⟩
    have hu : Unasked m := by
      refine run_unasked hm ?_
      rintro ⟨pre, post, rfl, -⟩
      exact hc (by simp)
    have hst := hs
    simp only [machine, step, Option.ite_none_right_eq_some, Option.some.injEq,
      Prod.mk.injEq] at hst
    obtain ⟨⟨hlt, -⟩, rfl, -⟩ := hst
    have horphan : Orphan { m with dropping := m.dropping.eraseIdx k } :=
      ⟨h0, eraseIdx_of_alone hd hlt⟩
    rcases (hall (pre ++ [.release k]) post (by simp) _ _ hm' horphan).1 with hclose | he
    · rcases (hu.dropped hclose).2 with hd' | hd'
      · rw [hd'] at hd
        cases hd
      · rw [hd'] at hd
        exact Or.inl (List.cons.inj hd).1.symm
    · exact Or.inr he

theorem not_terminating (hq : p.queue = []) (hlive : p.ended = false) :
    ¬ Terminating pc cfg p := by
  rintro ⟨hc | he, -⟩
  · rw [hq] at hc
    cases hc
  · exact Bool.false_ne_true (hlive.symm.trans he)

/-- The one handle is dropped. -/
def soleDrop : List ServedInput := [.test, .offer 0, .release 0]

theorem run_orphans_terminate_sole :
    (narrowMachine.Along LastAlone narrowStart soleDrop →
        OrphansTerminate .wire narrow narrowStart soleDrop) ∧
      (.close ∉ soleDrop → OrphansTerminate .wire narrow narrowStart soleDrop →
        narrowMachine.Along LastAlone narrowStart soleDrop) := by
  let r := narrowMachine.run narrowStart soleDrop
  have h : r = some (r.get rfl) := (Option.some_get rfl).symm
  have hroom : narrowMachine.Along (Room narrow) narrowStart soleDrop := by
    refine Mealy.along_cons.mpr ⟨nofun, fun p o hs => ?_⟩
    cases hs
    refine Mealy.along_cons.mpr ⟨fun k hk => by decide, fun p o hs => ?_⟩
    exact Mealy.along_cons.mpr ⟨nofun, fun _ _ _ => Mealy.along_nil⟩
  exact run_orphans_terminate h hroom

/-- Both drops test the count before either of them releases, and the session, which goes on
to read, has no handle. -/
theorem run_drops_orphan : ∃ p tr,
    narrowMachine.run narrowStart [.clone, .test, .test, .release 0, .release 0] = some (p, tr) ∧
      narrowMachine.Along (Room narrow) narrowStart [.clone, .test, .test, .release 0, .release 0] ∧
      Orphan p ∧ p.ended = false ∧ ¬ Terminating .wire narrow p := by
  let r := narrowMachine.run narrowStart [.clone, .test, .test, .release 0, .release 0]
  have h : r = some (r.get rfl) := (Option.some_get rfl).symm
  have hlive : (r.get rfl).1.ended = false := by decide +kernel
  have hq : (r.get rfl).1.queue = [] := by decide +kernel
  refine ⟨_, _, h, ?_, ⟨by decide +kernel, by decide +kernel⟩, hlive, ?_⟩
  · rintro pre i post hi m u - k rfl
    have hmem : ServedInput.offer k ∈ [.clone, .test, .test, .release 0, .release 0] := by
      rw [hi]
      simp
    simp at hmem
  · exact not_terminating hq hlive

/-- The last test of the count finds no other drop in progress, unless an owner has called `close`
before or the loop is over by the time no reference is left. -/
def LastTestAlone (pc : Postcard) (cfg : WsServerConfig) (p : Served snow)
    (is : List ServedInput) : Prop :=
  ∀ pre post, is = pre ++ .test :: post → ∀ m u, (machine pc cfg snow).run p pre = some (m, u) →
    m.handles = 1 → m.dropping = [] ∨ ClosedOn pc cfg p pre ∨
      ∀ js rest, post = js ++ rest → ∀ t v,
        (machine pc cfg snow).run m (.test :: js) = some (t, v) → Orphan t → t.ended = true

/-- The last handle is being dropped, and nothing asks the session to close. -/
structure Forsaken (p : Served snow) : Prop where
  handles : p.handles = 0
  tested : .tested 1 ∉ p.dropping
  queue : .close ∉ p.queue

theorem Forsaken.step (hf : Forsaken p) (h : p.step pc cfg i = some (p', o)) : Forsaken p' := by
  have hclose : i ≠ .close := by
    rintro rfl
    simp [Served.step, hf.handles] at h
  have hoffer : ∀ k, i ≠ .offer k := by
    rintro k rfl
    simp only [Served.step, Option.ite_none_right_eq_some] at h
    exact hf.tested (List.mem_of_getElem? h.1)
  have hq : .close ∉ p'.queue := fun hc => hf.queue (close_mem_of_step h hclose hoffer hc)
  rcases step_counts h with ⟨hh, hd⟩ | ⟨-, hh, -⟩ | ⟨-, hh, -⟩ | ⟨k, rfl, -⟩ | ⟨k, -, -, -, rfl⟩
  · exact ⟨hh.trans hf.handles, hd ▸ hf.tested, hq⟩
  · exact absurd hf.handles hh.ne'
  · exact absurd hf.handles hh.ne'
  · exact absurd rfl (hoffer k)
  · exact ⟨hf.handles, fun hm => hf.tested (List.mem_of_mem_eraseIdx hm), hq⟩

theorem Forsaken.run (hf : Forsaken p) (h : (machine pc cfg snow).run p is = some (t, tr)) :
    Forsaken t :=
  Mealy.run_invariant (P := Forsaken) (fun _ _ _ _ hf hs => hf.step hs) h hf

/-- A test that finds another drop in progress, in a session that nobody has asked to close. -/
theorem Unasked.forsaken (hu : Unasked p) (hh : p.handles = 1) (hd : p.dropping ≠ [])
    (h : p.step pc cfg .test = some (p', o)) : Forsaken p' := by
  simp only [step, Option.ite_none_left_eq_some, Option.some.injEq, Prod.mk.injEq] at h
  obtain ⟨-, rfl, -⟩ := h
  have hpos : 0 < p.dropping.length := List.length_pos_iff.mpr hd
  refine ⟨by dsimp only; omega, ?_, fun hc => ?_⟩
  · intro hm
    rcases List.mem_append.mp hm with hm | hm
    · exact absurd (hu.tested hm).1 (by omega)
    · have h1 : p.strongCount = 1 := (DropStage.tested.inj (List.mem_singleton.mp hm)).symm
      have hsum : p.handles + p.dropping.length = 1 := h1
      omega
  · exact absurd (hu.dropped hc).1 (by omega)

/-- The last handle has counted only itself, or the session is bound to close. -/
def Heeded (p : Served snow) : Prop :=
  p.handles = 0 ∧ (p.dropping = [.tested 1] ∨ Requested p)

theorem Heeded.step (hp : Heeded p) (hroom : Room cfg p i) (h : p.step pc cfg i = some (p', o)) :
    Heeded p' := by
  obtain ⟨h0, hcase⟩ := hp
  rcases step_counts h with ⟨hh, hd⟩ | ⟨-, hh, -⟩ | ⟨-, hh, -⟩ | ⟨k, rfl, -, rfl⟩ |
    ⟨k, -, hlt, hk, rfl⟩
  · refine ⟨hh.trans h0, ?_⟩
    rw [hd]
    exact hcase.imp_right (step_requested h)
  · exact absurd h0 hh.ne'
  · exact absurd h0 hh.ne'
  · exact ⟨(trySend_counts _).1.trans h0, Or.inr (requested_close (p := p) (hroom k rfl))⟩
  · refine ⟨h0, Or.inr ?_⟩
    rcases hcase with hd | hr
    · obtain rfl : k = 0 := by simpa [hd] using hlt
      exact absurd (by rw [hd]; rfl) hk
    · exact step_requested h hr

/-- From a last test that finds no other drop on, the session heeds its last handle. -/
theorem run_heeded (h : (machine pc cfg snow).run p (.test :: is) = some (t, tr))
    (hh : p.handles = 1) (hd : p.dropping = [])
    (hroom : (machine pc cfg snow).Along (Room cfg) p (.test :: is)) : Heeded t := by
  obtain ⟨p', o, tr', hs, hr, -⟩ := Mealy.run_cons.mp h
  have hp' : Heeded p' := by
    simp only [machine, step, Option.ite_none_left_eq_some, Option.some.injEq,
      Prod.mk.injEq] at hs
    obtain ⟨-, rfl, -⟩ := hs
    exact ⟨by dsimp only; omega, Or.inl (by simp [strongCount, hh, hd])⟩
  exact Mealy.run_induction_along (P := fun _ _ p => Heeded p) hp'
    (fun _ _ _ _ _ _ _ hp hroom hs => hp.step hroom hs) hr ((Mealy.along_cons.mp hroom).2 p' o hs)

theorem requested_of_closedOn (h : (machine pc cfg snow).run p is = some (t, tr))
    (hc : ClosedOn pc cfg p is) : Requested t := by
  obtain ⟨pre, post, rfl, hroom⟩ := hc
  obtain ⟨m, u, _, hm, -, -⟩ := Mealy.run_append.mp h
  obtain ⟨m', o, v, hs, hrest, -⟩ := Mealy.run_at h hm
  refine Mealy.run_invariant (P := Requested) (fun _ _ _ _ hr hs => step_requested hs hr) hrest ?_
  simp only [machine, step, Option.ite_none_left_eq_some, Option.some.injEq,
    Prod.mk.injEq] at hs
  obtain ⟨-, rfl, -⟩ := hs
  exact requested_close (hroom m u hm)

/-- A session without handles has seen its last test. -/
theorem exists_lastTest (h : (machine pc cfg snow).run (start cfg now noise) is = some (t, tr))
    (ht : t.handles = 0) : ∃ pre post m u, is = pre ++ .test :: post ∧
      (machine pc cfg snow).run (start cfg now noise) pre = some (m, u) ∧ m.handles = 1 := by
  refine Mealy.run_induction (P := fun is _ t => t.handles = 0 → ∃ pre post m u,
    is = pre ++ .test :: post ∧
      (machine pc cfg snow).run (start cfg now noise) pre = some (m, u) ∧ m.handles = 1)
    (fun h0 => by cases h0) ?_ h ht
  rintro is tr p i p' o hr ih hs h0
  have hkeep : p.handles = 0 → ∃ pre post m u, is ++ [i] = pre ++ .test :: post ∧
      (machine pc cfg snow).run (start cfg now noise) pre = some (m, u) ∧ m.handles = 1 := by
    intro hp
    obtain ⟨pre, post, m, u, rfl, hm, hh⟩ := ih hp
    exact ⟨pre, post ++ [i], m, u, by simp, hm, hh⟩
  rcases step_counts hs with ⟨hh, -⟩ | ⟨-, hh, rfl⟩ | ⟨rfl, hh, rfl⟩ | ⟨k, -, -, rfl⟩ |
    ⟨k, -, -, -, rfl⟩
  · exact hkeep (hh.symm.trans h0)
  · cases h0
  · have hone : p.handles = 1 := by
      dsimp only at h0
      omega
    exact ⟨is, [], p, tr, rfl, hr, hone⟩
  · exact hkeep ((trySend_counts _).1.symm.trans h0)
  · exact hkeep h0

/-- With room for the `Close` of a drop, and whatever the owners call, sessions without handles
terminate exactly if the last test of the count finds no other drop in progress, or the session is
asked to close or over anyway. -/
theorem run_lastTest_iff
    (h : (machine pc cfg snow).run (start cfg now noise) is = some (t, tr))
    (hroom : (machine pc cfg snow).Along (Room cfg) (start cfg now noise) is) :
    OrphansTerminate pc cfg (start cfg now noise) is ↔
      LastTestAlone pc cfg (start cfg now noise) is := by
  constructor
  · rintro hall pre post rfl m u hm hone
    by_cases hd : m.dropping = []
    · exact Or.inl hd
    by_cases hc : ClosedOn pc cfg (start cfg now noise) pre
    · exact Or.inr (Or.inl hc)
    refine Or.inr (Or.inr ?_)
    rintro js rest rfl t v ht horphan
    have hwhole : (machine pc cfg snow).run (start cfg now noise) (pre ++ .test :: js) =
        some (t, u ++ v) := Mealy.run_append.mpr ⟨m, u, v, hm, ht, rfl⟩
    obtain ⟨m', o, v', hs, hrest, -⟩ := Mealy.run_cons.mp ht
    have htest : m.step pc cfg .test = some (m', o) := hs
    have hf : Forsaken t := ((run_unasked hm hc).forsaken hone hd htest).run hrest
    have hterm := hall (pre ++ .test :: js) rest (by simp) t _ hwhole horphan
    exact hterm.1.resolve_left hf.queue
  · rintro hlast pre post rfl m u hm horphan
    rw [terminating_iff]
    obtain ⟨pre, js, p, v, rfl, hp, hone⟩ := exists_lastTest hm horphan.1
    obtain ⟨w, hw, -⟩ := Mealy.run_rest hm hp
    rcases hlast pre (js ++ post) (by simp) p v hp hone with hd | hc | hend
    · rw [List.append_assoc] at hroom
      have hroom' : (machine pc cfg snow).Along (Room cfg) p (.test :: js) := (hroom.right hp).left
      refine (run_heeded hw hone hd hroom').2.resolve_left fun hd' => ?_
      rw [horphan.2] at hd'
      cases hd'
    · refine Mealy.run_invariant (P := Requested) (fun _ _ _ _ hr hs => step_requested hs hr) hw ?_
      exact requested_of_closedOn hp hc
    · exact Or.inr (hend js post rfl m w hw horphan)

end

end Served

end NotifiTransport

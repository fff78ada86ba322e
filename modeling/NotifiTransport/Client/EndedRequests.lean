import NotifiTransport.Client.Requests

/-! # Requests that have ended

A call of `request` ends when it returns or when its caller drops the future. Whether its entry
in `pending` is gone by then depends on how it ends: the early return on a closed channel and
the dropped future leave it behind.
-/

namespace NotifiTransport

/-- The call has returned, or its future was dropped. -/
def Request.ended (r : Request) : Bool :=
  match r.stage with
  | .done _ | .dropped => true
  | _ => false

/-- The call ends without a look at `pending`. -/
def Event.abandons : Event → Bool
  | .refuse _ | .drop _ => true
  | _ => false

namespace WsClient

variable {snow : Snow} {pc : Postcard} {cfg : WsClientConfig} {parses : Text → Bool}
  {w w' : WsClient snow} {e : Event} {es : List Event} {tr o : List Output}

section Stages

variable {i j : ℕ} {r' : Request}

theorem setStage_request {s : Stage} (h : (w.setStage i s).requests[j]? = some r') :
    ∃ r, w.requests[j]? = some r ∧ (j = i ∧ r'.stage = s ∨ r'.stage = r.stage) := by
  rw [setStage, getElem?_modify] at h
  split at h
  · next hij =>
    obtain ⟨r, hr, rfl⟩ := Option.map_eq_some_iff.mp h
    exact ⟨r, hr, Or.inl ⟨hij.symm, rfl⟩⟩
  · exact ⟨r', h, Or.inr rfl⟩

theorem removePending_stage {id : UInt32} (h : (w.removePending id).requests[j]? = some r') :
    ∃ r, w.requests[j]? = some r ∧ r'.stage = r.stage := by
  obtain ⟨r, hr⟩ := exists_request_of_length (w.kept_removePending id).length.symm h
  obtain ⟨q, hq, hs⟩ := removePending_request id hr
  rw [h] at hq
  cases hq
  exact ⟨r, hr, hs⟩

theorem dispatchFrame_stage {f : Frame} (h : (w.dispatchFrame cfg f).1.requests[j]? = some r') :
    ∃ r, w.requests[j]? = some r ∧ r'.stage = r.stage := by
  rcases w.dispatchFrame_cases cfg f with ⟨q, hq⟩ | ⟨i, hd⟩
  · rw [hq] at h
    exact ⟨r', h, rfl⟩
  · obtain ⟨r, hr, ⟨-, rfl⟩ | ⟨-, rfl⟩⟩ := hd.request h
    · exact ⟨r, hr, rfl⟩
    · exact ⟨_, hr, rfl⟩

theorem clearPending_stage (h : w.clearPending.requests[j]? = some r') :
    ∃ r, w.requests[j]? = some r ∧ r'.stage = r.stage := by
  simp only [clearPending, List.getElem?_mapIdx] at h
  obtain ⟨r, hr, rfl⟩ := Option.map_eq_some_iff.mp h
  refine ⟨r, hr, ?_⟩
  split
  · exact r.close_stage
  · rfl

theorem reactAll_stage {x : List Effect} (h : (w.reactAll cfg x).1.requests[j]? = some r') :
    ∃ r, w.requests[j]? = some r ∧ r'.stage = r.stage := by
  induction x generalizing w with
  | nil => exact ⟨r', h, rfl⟩
  | cons e x ih =>
    obtain ⟨q, hq, hs⟩ := ih h
    obtain ⟨r, hr, hs'⟩ : ∃ r, w.requests[j]? = some r ∧ q.stage = r.stage := by
      cases e with
      | dispatch f => exact dispatchFrame_stage hq
      | clearPending => exact clearPending_stage hq
      | _ => exact ⟨q, hq, rfl⟩
    exact ⟨r, hr, hs.trans hs'⟩

theorem stepLoop_stage {i : Input} (h : w.stepLoop pc cfg i = some (w', o))
    (hr' : w'.requests[j]? = some r') : ∃ r, w.requests[j]? = some r ∧ r'.stage = r.stage := by
  obtain ⟨-, r₁, -, rfl, -⟩ := stepLoop_eq_some.mp h
  obtain ⟨q, hq, -⟩ := w.resume_eq i r₁.1
  obtain ⟨r, hr, hs⟩ := reactAll_stage hr'
  rw [hq] at hr
  exact ⟨r, hr, hs⟩

theorem trySend_stage {c : ClientCmd} (h : (w.trySend cfg c).requests[j]? = some r') :
    ∃ r, w.requests[j]? = some r ∧ r'.stage = r.stage := by
  obtain ⟨q, hq, -⟩ := w.trySend_eq cfg c
  rw [hq] at h
  exact ⟨r', h, rfl⟩

theorem ended_congr {r : Request} (hs : r'.stage = r.stage) (he : r'.ended) : r.ended := by
  unfold Request.ended at he ⊢
  rwa [← hs]

theorem setStage_ended {s : Stage} {k : ℕ} (h : (w.setStage k s).requests[i]? = some r')
    (he : r'.ended) : ∃ r, w.requests[i]? = some r ∧ (r.ended ∨ i = k ∧ r'.stage = s) := by
  obtain ⟨r, hr, hs | hs⟩ := setStage_request h
  · exact ⟨r, hr, Or.inr hs⟩
  · exact ⟨r, hr, Or.inl (ended_congr hs he)⟩

/-- A call that moves on has not ended. -/
theorem setStage_goesOn {s : Stage} {k : ℕ} (h : (w.setStage k s).requests[i]? = some r')
    (he : r'.ended) (hd : ∀ x, s ≠ .done x) (hn : s ≠ .dropped) :
    ∃ r, w.requests[i]? = some r ∧ r.ended := by
  obtain ⟨r, hr, hr' | ⟨-, rfl⟩⟩ := setStage_ended h he
  · exact ⟨r, hr, hr'⟩
  · unfold Request.ended at he
    split at he
    · next x hx => exact absurd hx (hd x)
    · next hx => exact absurd hx hn
    · cases he

theorem lookup_removePending (w : WsClient snow) (id : UInt32) :
    (w.removePending id).pending.lookup id = none := by
  unfold removePending
  split
  · assumption
  · exact AList.lookup_erase _ _

theorem stepRequest_ended {k : ℕ} {q : Request} (hq : w.requests[k]? = some q)
    (h : w.stepRequest cfg k q e = some (w', o)) (hr' : w'.requests[i]? = some r')
    (he : r'.ended) : ∃ r, w.requests[i]? = some r ∧ (r.ended ∨ i = k ∧
      (e.abandons ∨ (∃ data, r.rx = .value data) ∨ w'.pending.lookup r.id = none)) := by
  have hsame : (∃ r, w.requests[i]? = some r ∧ r.ended) → ∃ r, w.requests[i]? = some r ∧
      (r.ended ∨ i = k ∧ (e.abandons ∨ (∃ data, r.rx = .value data) ∨
        w'.pending.lookup r.id = none)) := by
    rintro ⟨r, hr, hre⟩
    exact ⟨r, hr, Or.inl hre⟩
  unfold stepRequest at h
  split at h
  · -- register
    split at h <;> cases h
    have hset : ((w.removePending q.id).setStage k .registered).requests[i]? = some r' := hr'
    obtain ⟨q₁, hq₁, hend⟩ := setStage_goesOn hset he (by simp) (by simp)
    obtain ⟨r, hr, hs⟩ := removePending_stage hq₁
    exact hsame ⟨r, hr, ended_congr hs hend⟩
  · -- permit
    split at h <;> cases h
    exact hsame (setStage_goesOn hr' he (by simp) (by simp))
  · -- enqueue
    split at h <;> cases h
    exact hsame (setStage_goesOn hr' he (by simp) (by simp))
  · -- refuse
    split at h <;> cases h
    obtain ⟨r, hr, hre | ⟨hik, -⟩⟩ := setStage_ended hr' he
    · exact hsame ⟨r, hr, hre⟩
    · exact ⟨r, hr, Or.inr ⟨hik, Or.inl rfl⟩⟩
  · -- resolve
    split at h <;> cases h
    · next data _ hx =>
      obtain ⟨r, hr, hre | ⟨rfl, -⟩⟩ := setStage_ended hr' he
      · exact hsame ⟨r, hr, hre⟩
      · rw [hq] at hr
        cases hr
        exact ⟨q, hq, Or.inr ⟨rfl, Or.inr (Or.inl ⟨data, hx⟩)⟩⟩
    · exact hsame (setStage_goesOn hr' he (by simp) (by simp))
  · -- expire
    split at h
    · split at h <;> cases h
      exact hsame (setStage_goesOn hr' he (by simp) (by simp))
    · cases h
  · -- remove
    split at h <;> cases h
    next x _ =>
    have hset : ((w.removePending q.id).setStage k (.done (.error x))).requests[i]? = some r' := hr'
    obtain ⟨q₁, hq₁, hre | ⟨rfl, -⟩⟩ := setStage_ended hset he
    · obtain ⟨r, hr, hs⟩ := removePending_stage hq₁
      exact hsame ⟨r, hr, ended_congr hs hre⟩
    · -- the entry under its id is gone
      exact ⟨q, hq, Or.inr ⟨rfl, Or.inr (Or.inr (w.lookup_removePending q.id))⟩⟩
  · -- drop
    split at h <;> cases h
    all_goals
      obtain ⟨r, hr, hre | ⟨hik, -⟩⟩ := setStage_ended hr' he
      · exact hsame ⟨r, hr, hre⟩
      · exact ⟨r, hr, Or.inr ⟨hik, Or.inl rfl⟩⟩
  · cases h

/-- Only an event of a request can end one. -/
theorem step_ended_cases (h : w.step pc cfg parses e = some (w', o))
    (hr' : w'.requests[i]? = some r') (he : r'.ended) :
    (∃ r, w.requests[i]? = some r ∧ r.ended) ∨
      ∃ k q, w.requests[k]? = some q ∧ w.stepRequest cfg k q e = some (w', o) ∧
        (e.abandons → e = .refuse k ∨ e = .drop k) := by
  have hsame : (∃ r, w.requests[i]? = some r ∧ r'.stage = r.stage) →
      ∃ r, w.requests[i]? = some r ∧ r.ended := by
    rintro ⟨r, hr, hs⟩
    exact ⟨r, hr, ended_congr hs he⟩
  cases e <;> simp only [step] at h
  case loop => exact Or.inl (hsame (stepLoop_stage h hr'))
  case notify k =>
    split at h <;> cases h
    exact Or.inl (hsame (trySend_stage (w := { w with calls := w.calls.eraseIdx k }) hr'))
  case reconnect | wake | sendEvent =>
    cases h
    exact Or.inl (hsame (trySend_stage hr'))
  case setEndpoint =>
    cases h
    unfold setEndpoint at hr'
    split at hr' <;> exact Or.inl (hsame ⟨r', hr', rfl⟩)
  case request data priority =>
    cases h
    rcases draw_request hr' with hr | ⟨-, rfl⟩
    · exact Or.inl (hsame ⟨r', hr, rfl⟩)
    · cases he
  case register k | permit k | enqueue k | resolve k | expire k | remove k =>
    split at h
    · next q hq => exact Or.inr ⟨k, q, hq, h, by simp [Event.abandons]⟩
    · cases h
  case refuse k =>
    split at h
    · next q hq => exact Or.inr ⟨k, q, hq, h, fun _ => Or.inl rfl⟩
    · cases h
  case drop k =>
    split at h
    · next q hq => exact Or.inr ⟨k, q, hq, h, fun _ => Or.inr rfl⟩
    · cases h
  all_goals
    cases h
    exact Or.inl (hsame ⟨r', hr', rfl⟩)

/-- The ways for a call to end: it is refused or dropped, it takes the value it was sent, or it
has removed its entry. -/
theorem step_ended (h : w.step pc cfg parses e = some (w', o)) (hr' : w'.requests[i]? = some r')
    (he : r'.ended) : ∃ r, w.requests[i]? = some r ∧ (r.ended ∨ e = .refuse i ∨ e = .drop i ∨
      (∃ data, r.rx = .value data) ∨ w'.pending.lookup r.id = none) := by
  rcases step_ended_cases h hr' he with ⟨r, hr, hre⟩ | ⟨k, q, hq, hst, hab⟩
  · exact ⟨r, hr, Or.inl hre⟩
  · obtain ⟨r, hr, hre | ⟨rfl, ha | hrest⟩⟩ := stepRequest_ended hq hst hr' he
    · exact ⟨r, hr, Or.inl hre⟩
    · exact ⟨r, hr, Or.inr ((hab ha).elim Or.inl fun hd => Or.inr (Or.inl hd))⟩
    · exact ⟨r, hr, Or.inr (Or.inr (Or.inr hrest))⟩

end Stages

/-- An entry is as old as the registration of its request. -/
theorem step_pending {id : UInt32} {i : ℕ} (h : w.step pc cfg parses e = some (w', o))
    (hi : w'.pending.lookup id = some i) : w.pending.lookup id = some i ∨
      ∃ r, w.requests[i]? = some r ∧ r.stage = .drawn ∧ w' = w.register i r := by
  rcases step_cases h with hk | ⟨data, priority, rfl⟩ | ⟨j, r, hr, hs, rfl⟩ | ⟨f, j, -, hd⟩
  · exact Or.inl (hk.pending id i hi)
  · exact Or.inl hi
  · by_cases hid : id = r.id
    · subst hid
      obtain rfl : j = i := by
        rw [register, AList.lookup_insert] at hi
        exact Option.some.inj hi
      exact Or.inr ⟨r, hr, hs, rfl⟩
    · rw [register, AList.lookup_insert_ne hid] at hi
      exact Or.inl ((kept_registered hr hs).pending id i hi)
  · have hne : id ≠ f.id := by
      rintro rfl
      rw [hd.pending, AList.lookup_erase] at hi
      cases hi
    rw [hd.pending, AList.lookup_erase_ne hne] at hi
    exact Or.inl hi

/-- `pending` only holds the entries of requests that are still awaited. -/
def OnlyAwaited (w : WsClient snow) : Prop :=
  ∀ id i, w.pending.lookup id = some i → ∃ r, w.requests[i]? = some r ∧ r.id = id ∧ ¬ r.ended

/-- A call that returns before it waits, or whose future is dropped, has no entry any more. -/
def Vacated (w : WsClient snow) : Event → Prop
  | .refuse i | .drop i => ∀ r, w.requests[i]? = some r → w.pending.lookup r.id ≠ some i
  | _ => True

theorem onlyAwaited_new : OnlyAwaited (new : WsClient snow) := by
  rintro id i ⟨⟩

theorem OnlyAwaited.not_ended (ho : OnlyAwaited w) {i : ℕ} {r : Request}
    (hr : w.requests[i]? = some r) (hi : w.pending.lookup r.id = some i) : ¬ r.ended := by
  obtain ⟨q, hq, -, he⟩ := ho r.id i hi
  rw [hr] at hq
  cases hq
  exact he

theorem step_onlyAwaited (hw : Routed w) (ho : OnlyAwaited w)
    (h : w.step pc cfg parses e = some (w', o)) : OnlyAwaited w' ↔ Vacated w e := by
  have hw' : Routed w' := hw.step h
  constructor
  · intro ho'
    -- the two events end the call and leave `pending` as it is
    have hleft : ∀ (i : ℕ) (s : Stage), (∀ r : Request, ({ r with stage := s } : Request).ended) →
        w' = w.setStage i s → ∀ r, w.requests[i]? = some r → w.pending.lookup r.id ≠ some i := by
      rintro i s hs rfl r hr hi
      have hr' : (w.setStage i s).requests[i]? = some { r with stage := s } := by
        rw [setStage, getElem?_modify, if_pos rfl, hr]
        rfl
      exact ho'.not_ended hr' hi (hs r)
    cases e with
    | refuse i =>
      simp only [step] at h
      split at h
      · simp only [stepRequest] at h
        split at h <;> cases h
        exact hleft i _ (fun _ => rfl) rfl
      · cases h
    | drop i =>
      simp only [step] at h
      split at h
      · simp only [stepRequest] at h
        split at h <;> cases h <;> exact hleft i _ (fun _ => rfl) rfl
      · cases h
    | _ => trivial
  · intro hv id i hi
    obtain ⟨r', hr', hid', hx', hs'⟩ := hw'.pending id i hi
    refine ⟨r', hr', hid', fun he => ?_⟩
    rcases step_pending h hi with hold | ⟨r, hr, -, rfl⟩
    · obtain ⟨r, hr, hid, hx, -⟩ := hw.pending id i hold
      subst hid
      obtain ⟨q, hq, hend⟩ := step_ended h hr' he
      rw [hr] at hq
      cases hq
      rcases hend with hend | rfl | rfl | ⟨data, hv'⟩ | hnone
      · exact ho.not_ended hr hold hend
      · exact hv r hr hold
      · exact hv r hr hold
      · rw [hx] at hv'
        cases hv'
      · rw [hnone] at hi
        cases hi
    · -- it has just been registered
      obtain ⟨q, hq, -⟩ := removePending_request r.id hr
      have hset : ((w.removePending r.id).setStage i .registered).requests[i]? = some r' := hr'
      rw [setStage, getElem?_modify, if_pos rfl, hq] at hset
      cases hset
      cases he

/-- All along a run `pending` only holds awaited requests, exactly if every call that is refused by
the channel or dropped by its caller has lost its entry before. -/
theorem run_onlyAwaited_iff (h : (machine pc cfg parses snow).run new es = some (w, tr)) :
    (∀ pre post, es = pre ++ post → ∀ m u, (machine pc cfg parses snow).run new pre = some (m, u) →
      OnlyAwaited m) ↔ (machine pc cfg parses snow).Along Vacated new es :=
  Mealy.run_always_iff onlyAwaited_new
    (fun _ _ _ _ _ _ _ _ hr ho hs => step_onlyAwaited (run_routed hr) ho hs) h

theorem run_onlyAwaited_iff_answered : ∃ w tr,
    (machine .wire .sample (fun _ => true) (Snow.ideal Ideal.genuine)).run new
        (answeredRequest "ws://a".toList) = some (w, tr) ∧ OnlyAwaited w := by
  have hrun : ((machine .wire .sample (fun _ => true) (Snow.ideal Ideal.genuine)).run new
      (answeredRequest "ws://a".toList)).isSome := by
    decide +kernel
  obtain ⟨⟨w, tr⟩, h⟩ := Option.isSome_iff_exists.mp hrun
  refine ⟨w, tr, h, (run_onlyAwaited_iff h).mpr ?_ _ [] (List.append_nil _).symm _ _ h⟩
  intro pre e post hes m u _
  have hwaits : ¬ e.abandons := by
    have hall : ∀ e ∈ answeredRequest "ws://a".toList, ¬ e.abandons := by decide
    exact hall e (by rw [hes]; simp)
  cases e with
  | refuse i | drop i => exact absurd rfl hwaits
  | _ => trivial

/-- A request after `shutdown`, and one whose future is dropped, leave their entries in
`pending`. -/
theorem run_ended_pending :
    (∃ w tr, (machine .wire .sample (fun _ => true) (Snow.ideal Ideal.genuine)).run new
        [.shutdown, .loop (.cancelFlag true), .request [5] .normal, .register 0, .refuse 0] =
          some (w, tr) ∧
      .completed 0 (.error .channelError) ∈ tr ∧ w.pending.lookup 2 = some 0 ∧ ¬ OnlyAwaited w) ∧
    ∃ w tr, (machine .wire .sample (fun _ => true) (Snow.ideal Ideal.genuine)).run new
        [.request [5] .normal, .register 0, .permit 0, .enqueue 0, .drop 0] = some (w, tr) ∧
      w.pending.lookup 2 = some 0 ∧ ¬ OnlyAwaited w := by
  let M := machine .wire .sample (fun _ => true) (Snow.ideal Ideal.genuine)
  constructor
  · let r := M.run new
      [.shutdown, .loop (.cancelFlag true), .request [5] .normal, .register 0, .refuse 0]
    have h : r = some (r.get rfl) := (Option.some_get rfl).symm
    refine ⟨_, _, h, by decide, rfl, fun ho => ?_⟩
    exact ho.not_ended (i := 0) rfl rfl rfl
  · let r := M.run new [.request [5] .normal, .register 0, .permit 0, .enqueue 0, .drop 0]
    have h : r = some (r.get rfl) := (Option.some_get rfl).symm
    refine ⟨_, _, h, rfl, fun ho => ?_⟩
    exact ho.not_ended (i := 0) rfl rfl rfl

end WsClient

end NotifiTransport

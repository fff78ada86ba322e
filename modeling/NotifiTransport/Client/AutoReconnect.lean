import NotifiTransport.Client.StaleCommands
import NotifiTransport.Client.TakenRequests

/-! # Calls of `set_auto_reconnect`

The call stores the flag, and if it switches auto-reconnect on it also sends a `Reconnect`. The
command waits in the channel until the loop reads it: a message loop takes it for a request to
close the connection.
-/

namespace NotifiTransport

/-- A step of a call of `set_auto_reconnect`, with `n` other calls in progress. -/
def Event.ofSetAutoReconnect (n : ℕ) : Event → Prop
  | .setAutoReconnect _ => True
  | .notify k => n ≤ k
  | _ => False

theorem eraseIdx_replicate {α : Type*} {l : List α} {n k : ℕ} {a b : α}
    (hk : l.length ≤ k) (h : (l ++ List.replicate n a)[k]? = some b) :
    b = a ∧ ∃ m, n = m + 1 ∧ (l ++ List.replicate n a).eraseIdx k = l ++ List.replicate m a := by
  rw [List.getElem?_append_right hk, List.getElem?_replicate] at h
  split at h <;> cases h
  next hlt =>
  obtain ⟨m, rfl⟩ : ∃ m, n = m + 1 := ⟨n - 1, by omega⟩
  refine ⟨rfl, m, rfl, ?_⟩
  rw [List.eraseIdx_append_of_length_le hk, List.eraseIdx_replicate, if_pos hlt]
  rfl

namespace WsClient

variable {snow : Snow} {pc : Postcard} {cfg : WsClientConfig} {parses : Text → Bool}
  {w w' m : WsClient snow} {e : Event} {es : List Event} {tr o : List Output}

/-- The state after calls of `set_auto_reconnect`, of which `k` still have to send their command and
`n` have put it in the channel. -/
def autoSet (w : WsClient snow) (enabled : Bool) (k n : ℕ) : WsClient snow :=
  { w with
    autoReconnect := enabled
    calls := w.calls ++ List.replicate k .reconnect
    queue := w.queue ++ List.replicate n .reconnect }

theorem hasRoom_autoSet (w : WsClient snow) (enabled : Bool) (k n : ℕ) :
    (w.autoSet enabled k n).hasRoom cfg ↔ w.queue.length + n + w.reserved < cfg.bufferSize := by
  simp only [hasRoom, autoSet, reserved, List.length_append, List.length_replicate,
    decide_eq_true_eq]

theorem step_autoSet {enabled : Bool} {k n : ℕ} (ha : w.loop.alive)
    (he : e.ofSetAutoReconnect w.calls.length)
    (h : (w.autoSet enabled k n).step pc cfg parses e = some (w', o)) :
    o = [] ∧ ∃ enabled' k' n', w' = w.autoSet enabled' k' n' ∧
      ((∀ j, e ≠ .notify j) ∧ n' = n ∨
        (∃ j, e = .notify j) ∧ n' = if (w.autoSet enabled k n).hasRoom cfg then n + 1 else n) := by
  cases e with
  | setAutoReconnect b =>
    cases h
    refine ⟨rfl, b, if b then k + 1 else k, n, ?_, Or.inl ⟨by simp, rfl⟩⟩
    cases b
    · rfl
    · simp [setAutoReconnect, autoSet, List.replicate_succ']
  | notify j =>
    simp only [step] at h
    split at h <;> cases h
    next c hc =>
    obtain ⟨rfl, k', rfl, herase⟩ := eraseIdx_replicate he hc
    refine ⟨rfl, enabled, k', _, ?_, Or.inr ⟨⟨j, rfl⟩, rfl⟩⟩
    have hcalls : { w.autoSet enabled (k' + 1) n with
        calls := (w.autoSet enabled (k' + 1) n).calls.eraseIdx j } = w.autoSet enabled k' n := by
      simp only [autoSet, herase]
    have hroom : (w.autoSet enabled k' n).hasRoom cfg =
        (w.autoSet enabled (k' + 1) n).hasRoom cfg := rfl
    have halive : (w.autoSet enabled k' n).loop.alive = true := ha
    rw [hcalls, trySend, halive, Bool.true_and, hroom]
    split
    · simp [autoSet, List.replicate_succ']
    · rfl
  | _ => cases he

/-- The flag is set, and the commands that find room go into the channel. -/
theorem run_autoSet (ha : w.loop.alive) (he : ∀ e ∈ es, e.ofSetAutoReconnect w.calls.length)
    (h : (machine pc cfg parses snow).run w es = some (w', tr)) : tr = [] ∧
      ∃ enabled k n, w' = w.autoSet enabled k n ∧
        (n = 0 ↔ (∀ j, .notify j ∉ es) ∨ ¬ w.hasRoom cfg) := by
  refine Mealy.run_induction_along (G := fun _ e => e.ofSetAutoReconnect w.calls.length)
    (P := fun es tr w' => tr = [] ∧ ∃ enabled k n, w' = w.autoSet enabled k n ∧
      (n = 0 ↔ (∀ j, .notify j ∉ es) ∨ ¬ w.hasRoom cfg)) ?_ ?_ h ?_
  · exact ⟨rfl, w.autoReconnect, 0, 0, by simp [autoSet], by simp⟩
  · rintro es _ _ e w' o - ⟨rfl, enabled, k, n, rfl, hn⟩ he hs
    obtain ⟨rfl, enabled', k', n', rfl, hcase⟩ := step_autoSet ha he hs
    refine ⟨rfl, enabled', k', n', rfl, ?_⟩
    rcases hcase with ⟨hne, rfl⟩ | ⟨⟨j, rfl⟩, rfl⟩
    · rw [hn]
      simp [fun j => (hne j).symm]
    · have hsent : ¬ ∀ i, Event.notify i ∉ es ++ [Event.notify j] := fun hno => hno j (by simp)
      rw [or_iff_right hsent]
      rcases Nat.eq_zero_or_pos n with rfl | hpos
      · -- the first command of these calls finds the channel as it was
        have hroom : (w.autoSet enabled k 0).hasRoom cfg = w.hasRoom cfg := by
          rw [Bool.eq_iff_iff, hasRoom_autoSet]
          simp [hasRoom]
        rw [hroom]
        split <;> simp [*]
      · have hroom : w.hasRoom cfg := by
          by_contra hno
          exact absurd (hn.mpr (Or.inr hno)) (by omega)
        refine iff_of_false ?_ (not_not.mpr hroom)
        split <;> omega
  · rintro pre e post rfl m u -
    exact he e (by simp)

/-- A message loop that takes a `Reconnect` closes its connection. -/
theorem step_reconnect_closes (hp : m.loop.phase.isOnline)
    (h : m.step pc cfg parses (.loop (.cmd .reconnect)) = some (w', o)) : .loop .close ∈ o := by
  rcases step_loop_cases h with ⟨-, -, hne⟩ | ⟨i, r, hi, -, hr, -, hout⟩
  · exact absurd rfl (hne _)
  cases hi
  obtain ⟨url, n, hn⟩ := Phase.exists_of_isOnline hp
  have hheeds : m.loop.phase.heeds := by
    rw [hn]
    rfl
  rw [← mem_loop?, hout]
  rcases Loop.step_heeds hheeds rfl hr with ⟨-, -, -, hclose⟩ | htop
  · rw [hclose]
    exact List.mem_cons_of_mem _ (List.mem_singleton_self _)
  · simp only [Loop.step, hn] at hr
    obtain ⟨s, -, rfl⟩ := Option.map_eq_some_iff.mp hr
    cases hs : s.1 <;> simp [hs, Loop.goto] at htop

/-- While a connection is open or being opened, calls of `set_auto_reconnect` change only the flag
exactly if none of them sends its command, or the channel has no room for one. Each command that
goes into the channel closes the connection whose message loop takes it. -/
theorem run_setAutoReconnect_iff (hp : w.loop.phase.isOnline ∨ w.loop.phase.attempting)
    (he : ∀ e ∈ es, e.ofSetAutoReconnect w.calls.length)
    (h : (machine pc cfg parses snow).run w es = some (w', tr)) :
    (w' = { w with autoReconnect := w'.autoReconnect, calls := w'.calls } ↔
        (∀ k, .notify k ∉ es) ∨ ¬ w.hasRoom cfg) ∧
      ∃ n, w'.queue = w.queue ++ List.replicate n .reconnect ∧
        ∀ m m' : WsClient snow, ∀ o, m.loop.phase.isOnline →
          m.step pc cfg parses (.loop (.cmd .reconnect)) = some (m', o) → .loop .close ∈ o := by
  have ha : w.loop.alive := by
    unfold Loop.alive
    split <;> next hl => simp [hl, Phase.isOnline, Phase.attempting] at hp ⊢
  obtain ⟨-, enabled, k, n, rfl, hn⟩ := run_autoSet ha he h
  refine ⟨?_, n, rfl, fun m m' o => step_reconnect_closes⟩
  rw [← hn]
  constructor
  · intro hframe
    have hqueue : w.queue ++ List.replicate n .reconnect = w.queue := congrArg WsClient.queue hframe
    simpa using hqueue
  · rintro rfl
    simp [autoSet]

/-- A client that waits for the response to its first request. -/
def awaiting : List Event :=
  .setEndpoint "ws://a".toList :: (Loop.goingOnline "ws://a".toList).map (fun i => .loop i.2) ++
    requesting ++ [.loop (.cmd (.send ⟨2, .message, [5]⟩ .normal)), .loop (.sent (.ok ())),
      .loop .noCmd]

theorem run_setAutoReconnect_iff_off : ∃ w w' tr,
    (machine .wire .sample (fun _ => true) (Snow.ideal Ideal.genuine)).run new awaiting =
        some (w, tr) ∧
      (machine .wire .sample (fun _ => true) (Snow.ideal Ideal.genuine)).run w
        [.setAutoReconnect false, .setAutoReconnect false] = some (w', []) ∧
      w' = { w with autoReconnect := w'.autoReconnect, calls := w'.calls } := by
  let M := machine .wire .sample (fun _ => true) (Snow.ideal Ideal.genuine)
  have hrun : (M.run new awaiting).any (fun x => x.1.loop.phase.isOnline &&
      (M.run x.1 [.setAutoReconnect false, .setAutoReconnect false]).any (·.2 = [])) = true := by
    decide +kernel
  obtain ⟨⟨w, tr⟩, hx, hrun⟩ := (Option.any_eq_true _ _).mp hrun
  obtain ⟨hp, hrun⟩ := Bool.and_eq_true_iff.mp hrun
  obtain ⟨⟨w', v⟩, hy, hv⟩ := (Option.any_eq_true _ _).mp hrun
  obtain rfl : v = [] := of_decide_eq_true hv
  have hcalls : ∀ e ∈ [.setAutoReconnect false, .setAutoReconnect false],
      Event.ofSetAutoReconnect w.calls.length e := by
    intro e he
    simp only [List.mem_cons, List.not_mem_nil, or_false, or_self] at he
    rw [he]
    trivial
  have hframe := (run_setAutoReconnect_iff (Or.inl hp) hcalls hy).1.mpr (Or.inl (by simp))
  exact ⟨w, w', tr, hx, hy, hframe⟩

/-- Auto-reconnect is switched on while a request waits for its response: the connection is closed,
and the request fails. -/
theorem run_setAutoReconnect_closes : ∃ w w' tr v,
    (machine .wire .sample (fun _ => true) (Snow.ideal Ideal.genuine)).run new awaiting =
        some (w, tr) ∧
      w.loop.phase.isOnline ∧
      (machine .wire .sample (fun _ => true) (Snow.ideal Ideal.genuine)).run w
        [.setAutoReconnect true, .notify 1, .loop (.cmd .reconnect), .loop .closed, .loop .proceed,
          .resolve 0, .remove 0] = some (w', v) ∧
      v = [.loop (.resumed (.cmd .reconnect)), .loop .close, .loop (.resumed .closed),
        .loop (.resumed .proceed), .loop (.publish .disconnected), .loop .clearPending,
        .completed 0 (.error .channelError)] := by
  let M := machine .wire .sample (fun _ => true) (Snow.ideal Ideal.genuine)
  have hrun : (M.run new awaiting).any (fun x => x.1.loop.phase.isOnline &&
      (M.run x.1 [.setAutoReconnect true, .notify 1, .loop (.cmd .reconnect), .loop .closed,
        .loop .proceed, .resolve 0, .remove 0]).any
          (·.2 = [.loop (.resumed (.cmd .reconnect)), .loop .close, .loop (.resumed .closed),
            .loop (.resumed .proceed), .loop (.publish .disconnected), .loop .clearPending,
            .completed 0 (.error .channelError)])) = true := by
    decide +kernel
  obtain ⟨⟨w, tr⟩, hx, hrun⟩ := (Option.any_eq_true _ _).mp hrun
  obtain ⟨hp, hrun⟩ := Bool.and_eq_true_iff.mp hrun
  obtain ⟨⟨w', v⟩, hy, hv⟩ := (Option.any_eq_true _ _).mp hrun
  exact ⟨w, w', tr, v, hx, hp, hy, of_decide_eq_true hv⟩

end WsClient

end NotifiTransport

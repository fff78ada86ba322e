import NotifiTransport.Client.Requests

/-! # The ids of requests

The counter starts at 2 and wraps. So the id of the next request is determined by the number
of earlier requests modulo `2 ^ 32`, and its clashes are those of the count.
-/

namespace NotifiTransport

namespace WsClient

variable {snow : Snow} {pc : Postcard} {cfg : WsClientConfig} {parses : Text → Bool}
  {w w' : WsClient snow} {es : List Event} {tr o : List Output}

theorem ofNat_eq_iff {a b : ℕ} : UInt32.ofNat a = UInt32.ofNat b ↔ a % 2 ^ 32 = b % 2 ^ 32 := by
  rw [← UInt32.toNat_inj, UInt32.toNat_ofNat', UInt32.toNat_ofNat']

theorem draw_request_self (w : WsClient snow) (data : Bytes) (priority : MessagePriority) :
    (w.draw data priority).requests[w.requests.length]? =
      some ⟨w.nextId, data, priority, .drawn, .empty⟩ :=
  List.getElem?_concat_length

/-- A new id is neither reserved nor pending exactly if the count of earlier requests is, modulo
`2 ^ 32`, below the last two values and different from the number of every pending request. -/
theorem run_request_id_fresh_iff (data : Bytes) (priority : MessagePriority)
    (h : (machine pc cfg parses snow).run new es = some (w, tr))
    (hs : w.step pc cfg parses (.request data priority) = some (w', o)) :
    ∃ r, w'.requests[w.requests.length]? = some r ∧
      ((r.id ≠ 0 ∧ r.id ≠ 1 ∧ ∀ id i, w.pending.lookup id = some i → r.id ≠ id) ↔
        w.requests.length % 2 ^ 32 < 2 ^ 32 - 2 ∧
          ∀ id i, w.pending.lookup id = some i → w.requests.length % 2 ^ 32 ≠ i % 2 ^ 32) := by
  have hw : Routed w := run_routed h
  cases hs
  refine ⟨_, draw_request_self w data priority, ?_⟩
  have hid : ∀ k, w.nextId ≠ UInt32.ofNat k ↔ (2 + w.requests.length) % 2 ^ 32 ≠ k % 2 ^ 32 := by
    intro k
    rw [hw.nextId, Ne, ofNat_eq_iff]
  rw [← and_assoc]
  apply and_congr
  · have h₀ := hid 0
    have h₁ := hid 1
    constructor
    · rintro ⟨hz, ho⟩
      have := h₀.mp hz
      have := h₁.mp ho
      omega
    · intro hlt
      exact ⟨h₀.mpr (by omega), h₁.mpr (by omega)⟩
  · refine forall₂_congr fun id i => forall_congr' fun hi => ?_
    obtain ⟨r, hr, rfl, -⟩ := hw.pending id i hi
    rw [hw.id i r hr, hid]
    constructor <;> omega

/-- Two calls have registered and wait. -/
def registeringTwo : List Event :=
  [.request [1] .normal, .register 0, .request [2] .bulk, .register 1]

theorem run_request_id_fresh_iff_third : ∃ w tr w' o r,
    (machine .wire .sample (fun _ => true) (Snow.ideal Ideal.genuine)).run new registeringTwo =
        some (w, tr) ∧ w.pending.lookup 2 = some 0 ∧ w.pending.lookup 3 = some 1 ∧
      w.step .wire .sample (fun _ => true) (.request [3] .normal) = some (w', o) ∧
      w'.requests[2]? = some r ∧ r.id ≠ 0 ∧ r.id ≠ 1 ∧
      ∀ id i, w.pending.lookup id = some i → r.id ≠ id := by
  let x := (machine .wire .sample (fun _ => true) (Snow.ideal Ideal.genuine)).run new registeringTwo
  have hx : x = some (x.get rfl) := (Option.some_get rfl).symm
  obtain ⟨r, hr, hiff⟩ := run_request_id_fresh_iff [3] .normal hx rfl
  have hfree : ∀ id i, (x.get rfl).1.pending.lookup id = some i → 2 % 2 ^ 32 ≠ i % 2 ^ 32 := by
    intro id i hi
    obtain ⟨q, hq, -⟩ := (run_routed hx).pending id i hi
    have hlt : i < 2 := (List.getElem?_eq_some_iff.mp hq).1
    omega
  exact ⟨_, _, _, _, r, hx, rfl, rfl, rfl, hr, hiff.mpr ⟨by decide, hfree⟩⟩

/-- Requests that are drawn one after the other, without any other step. -/
theorem run_requests (w : WsClient snow) (n : ℕ) : ∃ w' : WsClient snow,
    (machine pc cfg parses snow).run w (List.replicate n (.request [] .normal)) = some (w', []) ∧
      w'.nextId = w.nextId + .ofNat n ∧ w'.requests.length = w.requests.length + n ∧
      w'.pending = w.pending := by
  induction n generalizing w with
  | zero => exact ⟨w, rfl, (UInt32.add_zero _).symm, rfl, rfl⟩
  | succ n ih =>
    obtain ⟨w', hr, hn, hl, hp⟩ := ih (w.draw [] .normal)
    refine ⟨w', Mealy.run_cons.mpr ⟨_, [], [], rfl, hr, rfl⟩, ?_, ?_, hp⟩
    · rw [hn, draw, UInt32.add_assoc, UInt32.ofNat_add, UInt32.add_comm 1]
      rfl
    · rw [hl, draw, List.length_append, List.length_singleton]
      omega

/-- The first request is pending, and `n` more have been made. -/
def pendingThen (n : ℕ) : List Event :=
  [.request [] .normal, .register 0] ++ List.replicate n (.request [] .normal)

theorem run_pendingThen (n : ℕ) : ∃ w tr,
    (machine pc cfg parses snow).run new (pendingThen n) = some (w, tr) ∧
      w.nextId = 3 + .ofNat n ∧ w.pending.lookup 2 = some 0 := by
  let first : WsClient snow := (new.draw [] .normal).register 0 ⟨2, [], .normal, .drawn, .empty⟩
  have hfirst : (machine pc cfg parses snow).run new [.request [] .normal, .register 0] =
      some (first, []) := rfl
  obtain ⟨w, hr, hn, -, hp⟩ := run_requests first n
  refine ⟨w, [], Mealy.run_append.mpr ⟨first, [], [], hfirst, hr, rfl⟩, hn, ?_⟩
  rw [hp]
  exact AList.lookup_insert _

/-- After `2 ^ 32 - 2` requests the next one gets the id of events; two later, the next one
gets the id of the first, which is still pending. -/
theorem run_request_id_wraps :
    (∃ (w w' : WsClient (Snow.ideal Ideal.genuine)) (tr o : List Output) (r : Request),
      (machine .wire .sample (fun _ => true) _).run new (pendingThen (2 ^ 32 - 3)) =
        some (w, tr) ∧
      w.step .wire .sample (fun _ => true) (.request [] .normal) = some (w', o) ∧
      w'.requests[w.requests.length]? = some r ∧ r.id = 0) ∧
    ∃ (w w' : WsClient (Snow.ideal Ideal.genuine)) (tr o : List Output) (r : Request),
      (machine .wire .sample (fun _ => true) _).run new (pendingThen (2 ^ 32 - 1)) =
        some (w, tr) ∧
      w.step .wire .sample (fun _ => true) (.request [] .normal) = some (w', o) ∧
      w'.requests[w.requests.length]? = some r ∧ w.pending.lookup r.id = some 0 := by
  constructor
  · obtain ⟨w, tr, hr, hn, -⟩ := run_pendingThen (2 ^ 32 - 3)
    refine ⟨w, _, tr, _, _, hr, rfl, draw_request_self w [] .normal, ?_⟩
    rw [hn]
    decide
  · obtain ⟨w, tr, hr, hn, hp⟩ := run_pendingThen (2 ^ 32 - 1)
    refine ⟨w, _, tr, _, _, hr, rfl, draw_request_self w [] .normal, ?_⟩
    rw [hn]
    exact hp

end WsClient

end NotifiTransport

import NotifiTransport.Client.Steps
import NotifiTransport.Crypto.Ideal
import NotifiTransport.Frame.Postcard

/-! # Delays during an outage

Every delay of a run is the strategy's delay at the attempt counter. For an exponential or
a linear strategy it is the documented value exactly while the attempt is in range; a run of failed
connects drives the counter of the default strategy out of range at attempt 64, and that of a
linear strategy with a long step at attempt 2.
-/

namespace NotifiTransport

namespace Loop

variable {snow : Snow} {pc : Postcard} {cfg : WsClientConfig} {l : Loop snow}
  {is : List (ℕ × Input)} {tr : List Effect}

theorem run_nextDelay (h : (machine pc cfg snow).run init is = some (l, tr)) {n : UInt32}
    {d : Option Duration} (hd : .nextDelay n d ∈ tr) : d = cfg.backoff.nextDelay n := by
  obtain ⟨m, i, m', o, hs, ho⟩ := Mealy.run_output h hd
  obtain ⟨r, hr, -, rfl⟩ := machine_step.mp hs
  have he : m.Emits cfg i.2 (.nextDelay n d) := step_emits hr _ (by simpa using ho)
  exact he.2

/-- The inputs of `n` attempts that fail to connect, the first of them without a backoff. -/
def failedAttempts (url e : Text) : ℕ → List (ℕ × Input)
  | 0 => []
  | n + 1 => failedAttempts url e n ++ ([(0, .cancelFlag false), (0, .url (some url))] ++
      (if n = 0 then [] else [(0, .elapsed)]) ++ [(0, .connected (.error e))])

/-- One failed attempt raises the counter by one. -/
theorem run_failedAttempt (url e : Text) {n : ℕ} {d : Duration}
    (hd : cfg.backoff.nextDelay (.ofNat n) = some d) (hpos : 0 < d.nanos ↔ n ≠ 0) :
    ((machine pc cfg snow).run ⟨.top, .ofNat n, false⟩
      ([(0, .cancelFlag false), (0, .url (some url))] ++
        (if n = 0 then [] else [(0, .elapsed)]) ++ [(0, .connected (.error e))])).map Prod.fst =
      some ⟨.top, .ofNat (n + 1), false⟩ := by
  rcases eq_or_ne n 0 with rfl | hn
  · have hz : d.nanos = 0 := by omega
    have hd' : cfg.backoff.nextDelay 0 = some d := hd
    simp [Mealy.run, machine, step, onUrl, dial, goto, fail, retry, hd', hz]
  · have hz : 0 < d.nanos := hpos.mpr hn
    simp [Mealy.run, machine, step, onUrl, dial, goto, fail, retry, hd, hz, hn, UInt32.ofNat_add]

theorem run_failedAttempts (url e : Text) (n : ℕ) (h : ∀ k < n, ∃ d,
      cfg.backoff.nextDelay (.ofNat k) = some d ∧ (0 < d.nanos ↔ k ≠ 0)) :
    ∃ tr, (machine pc cfg snow).run init (failedAttempts url e n) =
      some (⟨.top, .ofNat n, false⟩, tr) := by
  induction n with
  | zero => exact ⟨[], rfl⟩
  | succ n ih =>
    obtain ⟨tr, hr⟩ := ih fun k hk => h k (by omega)
    obtain ⟨d, hd, hpos⟩ := h n (by omega)
    obtain ⟨⟨l, tr'⟩, hr', rfl⟩ := Option.map_eq_some_iff.mp (run_failedAttempt url e hd hpos)
    exact ⟨tr ++ tr', Mealy.run_append.mpr ⟨_, tr, tr', hr, hr', rfl⟩⟩

/-- What a strategy does call by call, and its capped values, hold of the delays of a run. -/
theorem run_capped {capped : ℕ → Duration} {InRange : UInt32 → Prop} {max : Duration}
    (hiff : ∀ n, n ≠ 0 → (cfg.backoff.nextDelay n = some (capped n.toNat) ↔ InRange n))
    (hmono : ∀ m n, m ≤ n → (capped m).nanos ≤ (capped n).nanos)
    (hmax : ∀ n, (capped n).nanos ≤ max.nanos)
    (h : (machine pc cfg snow).run init is = some (l, tr)) :
    (∀ n d, .nextDelay n d ∈ tr → n ≠ 0 → (d = some (capped n.toNat) ↔ InRange n)) ∧
    ∀ n n' d d', .nextDelay n d ∈ tr → .nextDelay n' d' ∈ tr → n ≠ 0 → n ≤ n' →
      InRange n → InRange n' →
      ∃ x x', d = some x ∧ d' = some x' ∧ x.nanos ≤ x'.nanos ∧ x'.nanos ≤ max.nanos := by
  have key : ∀ n d, .nextDelay n d ∈ tr → n ≠ 0 → (d = some (capped n.toNat) ↔ InRange n) := by
    intro n d hd hn
    rw [run_nextDelay h hd]
    exact hiff n hn
  constructor
  · exact key
  · intro n n' d d' hd hd' hn hle hr hr'
    have hn' : n' ≠ 0 := by
      rintro rfl
      exact hn (UInt32.le_zero_iff.mp hle)
    exact ⟨_, _, (key n d hd hn).mpr hr, (key n' d' hd' hn').mpr hr',
      hmono _ _ (UInt32.le_iff_toNat_le.mp hle), hmax _⟩

/-- The delay is the documented one exactly in range, and in range the delays are capped and
grow with the attempt. -/
theorem run_nextDelay_capped_iff (b : ExponentialBackoff) (hb : cfg.backoff = b.strategy)
    (hm : 1 ≤ b.multiplier) (h : (machine pc cfg snow).run init is = some (l, tr)) :
    (∀ n d, .nextDelay n d ∈ tr → n ≠ 0 → (d = some (b.capped n.toNat) ↔ b.InRange n)) ∧
    ∀ n n' d d', .nextDelay n d ∈ tr → .nextDelay n' d' ∈ tr → n ≠ 0 → n ≤ n' →
      b.InRange n → b.InRange n' →
      ∃ x x', d = some x ∧ d' = some x' ∧ x.nanos ≤ x'.nanos ∧ x'.nanos ≤ b.maxDelay.nanos := by
  apply run_capped ?_ (fun _ _ hle => ExponentialBackoff.capped_mono hm hle)
    ExponentialBackoff.capped_le_max h
  intro n hn
  rw [hb]
  exact ExponentialBackoff.nextDelay_eq_capped_iff hm hn

/-- A first attempt that fails, and the delay before the second. -/
theorem run_nextDelay_capped_iff_first : ∃ l tr,
    (machine .wire .sample (Snow.ideal Ideal.genuine)).run init
        (failedAttempts "ws://a".toList "refused".toList 1 ++
          [(0, .cancelFlag false), (0, .url (some "ws://a".toList))]) = some (l, tr) ∧
      ∀ n d, .nextDelay n d ∈ tr → n ≠ 0 →
        (d = some (defaultBackoff.capped n.toNat) ↔ defaultBackoff.InRange n) := by
  obtain ⟨⟨l, tr⟩, hr⟩ : ∃ r, (machine .wire .sample (Snow.ideal Ideal.genuine)).run init
      (failedAttempts "ws://a".toList "refused".toList 1 ++
        [(0, .cancelFlag false), (0, .url (some "ws://a".toList))]) = some r :=
    Option.isSome_iff_exists.mp (by decide)
  exact ⟨l, tr, hr, (run_nextDelay_capped_iff defaultBackoff rfl (by decide) hr).1⟩

/-- Before the cap the default strategy waits `2 ^ (e + 1)` seconds. -/
theorem scaledNanos_defaultBackoff (e : ℕ) :
    defaultBackoff.scaledNanos e = 2 * 10 ^ 9 * 2 ^ e :=
  ExponentialBackoff.scaledNanos_natCast (m := 2) rfl e

theorem nextDelay_defaultBackoff {k : ℕ} (hk : k < 64) : ∃ d,
    defaultBackoff.nextDelay (.ofNat k) = some d ∧ (0 < d.nanos ↔ k ≠ 0) := by
  rcases Nat.eq_zero_or_pos k with rfl | hpos
  · exact ⟨.zero, rfl, by decide⟩
  · have hk' : (UInt32.ofNat k).toNat = k := UInt32.toNat_ofNat_of_lt (by change k < 2 ^ 32; omega)
    have hne : UInt32.ofNat k ≠ 0 := by
      intro h
      rw [h] at hk'
      simp at hk'
      omega
    have hs : ((k : ℤ) - 1) = ((k - 1 : ℕ) : ℤ) := by omega
    have hpow : 2 ^ (k - 1) < 2 ^ 63 := Nat.pow_lt_pow_right (by decide) (by omega)
    have hr : defaultBackoff.InRange (.ofNat k) := by
      rw [ExponentialBackoff.InRange, hk', if_pos (by omega), hs, scaledNanos_defaultBackoff,
        Duration.bound]
      omega
    refine ⟨_, (ExponentialBackoff.nextDelay_eq_capped_iff (by decide) hne).mpr hr, ?_⟩
    have hpos' : 0 < 2 ^ (k - 1) := Nat.pow_pos (by decide)
    have hmin : 0 < min (2 * 10 ^ 9 * 2 ^ (k - 1)) defaultBackoff.maxDelay.nanos :=
      lt_min (by omega) (by decide)
    rw [← scaledNanos_defaultBackoff, ← hs, ← hk'] at hmin
    exact iff_of_true hmin hpos.ne'

theorem nextDelay_defaultBackoff_64 : defaultBackoff.nextDelay 64 = none := by
  have he : ExponentialBackoff.exponent 64 = (63 : ℕ) := by decide
  rw [ExponentialBackoff.nextDelay_of_ne_zero (by decide) (by decide), he,
    scaledNanos_defaultBackoff, Duration.ofNanos_eq_none.mpr (by decide)]
  rfl

/-- After 64 failed connects in a row the default client panics instead of waiting 30 s. -/
theorem run_default_panics : ∃ l tr,
    (machine .wire .sample (Snow.ideal Ideal.genuine)).run init
        (failedAttempts "ws://a".toList "refused".toList 64 ++
          [(0, .cancelFlag false), (0, .url (some "ws://a".toList))]) = some (l, tr) ∧
      .nextDelay 64 none ∈ tr ∧ l.phase = .panicked := by
  have hd : WsClientConfig.sample.backoff.nextDelay 64 = none := nextDelay_defaultBackoff_64
  have hend : (machine .wire .sample (Snow.ideal Ideal.genuine)).run ⟨.top, .ofNat 64, false⟩
      [(0, .cancelFlag false), (0, .url (some "ws://a".toList))] =
      some (⟨.panicked, 64, false⟩, [.resumed (.cancelFlag false),
        .resumed (.url (some "ws://a".toList)), .nextDelay 64 none]) := by
    simp [Mealy.run, machine, step, onUrl, goto, hd]
  obtain ⟨tr, hr⟩ : ∃ tr, (machine .wire .sample (Snow.ideal Ideal.genuine)).run init
      (failedAttempts "ws://a".toList "refused".toList 64) = some (⟨.top, .ofNat 64, false⟩, tr) :=
    run_failedAttempts _ _ 64 fun k hk => nextDelay_defaultBackoff hk
  exact ⟨_, _, Mealy.run_append.mpr ⟨_, tr, _, hr, hend, rfl⟩, by simp, rfl⟩

section Linear

/-- One second at first, and the longest duration as the step to get to the cap at once. -/
def steepBackoff : LinearBackoff where
  initialDelay := .fromSecs 1 (by decide)
  step := ⟨Duration.bound - 1, by decide⟩
  maxDelay := defaultBackoff.maxDelay

def steepConfig : WsClientConfig :=
  { WsClientConfig.sample with backoff := steepBackoff.strategy }

/-- After two failed connects the client panics instead of waiting 30 s. -/
theorem run_steepBackoff_panics : ∃ l tr,
    (machine .wire steepConfig (Snow.ideal Ideal.genuine)).run init
        (failedAttempts "ws://a".toList "refused".toList 2 ++
          [(0, .cancelFlag false), (0, .url (some "ws://a".toList))]) = some (l, tr) ∧
      .nextDelay 2 none ∈ tr ∧ l.phase = .panicked := by
  have hend : (machine .wire steepConfig (Snow.ideal Ideal.genuine)).run ⟨.top, .ofNat 2, false⟩
      [(0, .cancelFlag false), (0, .url (some "ws://a".toList))] =
      some (⟨.panicked, 2, false⟩, [.resumed (.cancelFlag false),
        .resumed (.url (some "ws://a".toList)), .nextDelay 2 none]) := rfl
  obtain ⟨tr, hr⟩ : ∃ tr, (machine .wire steepConfig (Snow.ideal Ideal.genuine)).run init
      (failedAttempts "ws://a".toList "refused".toList 2) = some (⟨.top, .ofNat 2, false⟩, tr) := by
    apply run_failedAttempts
    intro k hk
    obtain rfl | rfl : k = 0 ∨ k = 1 := by omega
    · exact ⟨_, rfl, by decide⟩
    · exact ⟨_, rfl, by decide⟩
  exact ⟨_, _, Mealy.run_append.mpr ⟨_, tr, _, hr, hend, rfl⟩, by simp, rfl⟩

/-- A linear delay is the capped sum exactly if the sum is a duration, and then the delays up to
it are capped and grow with the attempt. -/
theorem run_linearDelay_capped_iff (b : LinearBackoff) (hb : cfg.backoff = b.strategy)
    (h : (machine pc cfg snow).run init is = some (l, tr)) :
    (∀ n d, .nextDelay n d ∈ tr → n ≠ 0 → (d = some (b.capped n.toNat) ↔ b.InRange n)) ∧
    ∀ n n' d d', .nextDelay n d ∈ tr → .nextDelay n' d' ∈ tr → n ≠ 0 → n ≤ n' → b.InRange n' →
      ∃ x x', d = some x ∧ d' = some x' ∧ x.nanos ≤ x'.nanos ∧ x'.nanos ≤ b.maxDelay.nanos := by
  have hiff : ∀ n, n ≠ 0 → (cfg.backoff.nextDelay n = some (b.capped n.toNat) ↔ b.InRange n) := by
    intro n hn
    rw [hb]
    exact LinearBackoff.nextDelay_eq_capped_iff hn
  obtain ⟨hone, htwo⟩ := run_capped hiff (fun _ _ hle => LinearBackoff.capped_mono hle)
    LinearBackoff.capped_le_max h
  constructor
  · exact hone
  · intro n n' d d' hd hd' hn hle hr'
    have hr : b.InRange n :=
      (LinearBackoff.sumNanos_mono (UInt32.le_iff_toNat_le.mp hle)).trans_lt hr'
    exact htwo n n' d d' hd hd' hn hle hr hr'

/-- The first delay of the steep strategy is in range. -/
theorem run_linearDelay_capped_iff_first : ∃ l tr,
    (machine .wire steepConfig (Snow.ideal Ideal.genuine)).run init
        (failedAttempts "ws://a".toList "refused".toList 1 ++
          [(0, .cancelFlag false), (0, .url (some "ws://a".toList))]) = some (l, tr) ∧
      ∀ n d, .nextDelay n d ∈ tr → n ≠ 0 →
        (d = some (steepBackoff.capped n.toNat) ↔ steepBackoff.InRange n) := by
  obtain ⟨⟨l, tr⟩, hr⟩ : ∃ r, (machine .wire steepConfig (Snow.ideal Ideal.genuine)).run init
      (failedAttempts "ws://a".toList "refused".toList 1 ++
        [(0, .cancelFlag false), (0, .url (some "ws://a".toList))]) = some r :=
    Option.isSome_iff_exists.mp rfl
  exact ⟨l, tr, hr, (run_linearDelay_capped_iff steepBackoff rfl hr).1⟩

end Linear

end Loop

end NotifiTransport

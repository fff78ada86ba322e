import NotifiTransport.Server.Versions

/-! # The language of accepted hellos

The hello should be the protocol name, one space and the version, with white space around the
version. The server strips its name from the front as often as it is there, so a repeated name is
accepted too, and a version equal to the name can be taken for a repetition.
-/

namespace NotifiTransport

variable {name version t r : Text} {k n : ℕ}

/-- The name and a space, `k` times. -/
def copies (name : Text) (k : ℕ) : Text := (List.replicate k (name ++ [' '])).flatten

@[simp] theorem copies_zero (name : Text) : copies name 0 = [] := rfl

theorem copies_succ (name : Text) (k : ℕ) :
    copies name (k + 1) = (name ++ [' ']) ++ copies name k := by
  rw [copies, List.replicate_succ, List.flatten_cons]
  rfl

/-- Every text is a number of copies and a rest that does not begin with one more. -/
theorem exists_copies (name t : Text) :
    ∃ k r, t = copies name k ++ r ∧ ¬ name ++ [' '] <+: r := by
  induction hn : t.length using Nat.strong_induction_on generalizing t with
  | _ n ih =>
    by_cases hp : name ++ [' '] <+: t
    · obtain ⟨u, rfl⟩ := hp
      obtain ⟨k, r, rfl, hr⟩ := ih u.length (by simp [← hn]; omega) u rfl
      exact ⟨k + 1, r, by simp [copies_succ], hr⟩
    · exact ⟨0, t, rfl, hp⟩

theorem trimStartMatchesUpTo_copies (hr : ¬ name ++ [' '] <+: r) (hk : k ≤ n) :
    trimStartMatchesUpTo (name ++ [' ']) n (copies name k ++ r) = r := by
  induction n generalizing k with
  | zero =>
    obtain rfl := Nat.le_zero.mp hk
    rfl
  | succ n ih =>
    cases k with
    | zero => simp [trimStartMatchesUpTo, stripPrefix, hr]
    | succ k =>
      rw [copies_succ, List.append_assoc, trimStartMatchesUpTo, stripPrefix_append]
      exact ih (by omega)

theorem le_length_copies (name : Text) (k : ℕ) : k ≤ (copies name k).length := by
  induction k with
  | zero => exact Nat.zero_le _
  | succ k ih =>
    rw [copies_succ, List.length_append, List.length_append, List.length_singleton]
    omega

theorem trimStartMatches_copies (hr : ¬ name ++ [' '] <+: r) :
    trimStartMatches (name ++ [' ']) (copies name k ++ r) = r := by
  have hle := le_length_copies name k
  apply trimStartMatchesUpTo_copies hr
  rw [List.length_append]
  omega

theorem prefix_copies_iff (hr : ¬ name ++ [' '] <+: r) :
    name ++ [' '] <+: copies name k ++ r ↔ k ≠ 0 := by
  cases k with
  | zero => simpa using hr
  | succ k =>
    rw [copies_succ, List.append_assoc]
    exact iff_of_true (List.prefix_append _ _) (Nat.succ_ne_zero k)

/-- The intended form of a hello. -/
def HelloText (cfg : WsServerConfig) (t : Text) : Prop :=
  ∃ r, t = cfg.protocolName ++ ' ' :: r ∧ Trim.Padded isWhitespace cfg.protocolVersion r

/-- The texts on which the repetitions of the name matter: they are stripped before the version,
or the last of them is the version. -/
def RepeatedHello (cfg : WsServerConfig) (t : Text) : Prop :=
  cfg.protocolName ≠ [] ∧ ∃ k r, 2 ≤ k ∧ t = copies cfg.protocolName k ++ r ∧
    ¬ cfg.protocolName ++ [' '] <+: r ∧
    (Trim.Padded isWhitespace cfg.protocolVersion r ∨
      k = 2 ∧ cfg.protocolVersion = cfg.protocolName ∧ Trim.Padded isWhitespace [] r)

/-- The check accepts any number of copies before the version. -/
theorem checkHello_copies {cfg : WsServerConfig} (hv : validateProtocolString cfg.protocolVersion)
    (hr : ¬ cfg.protocolName ++ [' '] <+: r) :
    checkHello cfg (copies cfg.protocolName k ++ r) = .ok () ↔
      k ≠ 0 ∧ Trim.Padded isWhitespace cfg.protocolVersion r := by
  rw [← Trim.trimBy_eq_iff (not_isWhitespace hv), ← trim_eq_trimBy, checkHello]
  simp only [prefix_copies_iff hr, trimStartMatches_copies hr]
  split
  · next hk =>
    split
    · next h => simp [hk, h]
    · next h => simp [h]
  · next hk => simp [not_not.mp hk]

theorem helloText_copies {cfg : WsServerConfig} (hr : ¬ cfg.protocolName ++ [' '] <+: r) :
    HelloText cfg (copies cfg.protocolName k ++ r) ↔
      k ≠ 0 ∧ Trim.Padded isWhitespace cfg.protocolVersion
        (copies cfg.protocolName (k - 1) ++ r) := by
  cases k with
  | zero =>
    refine iff_of_false ?_ (by simp)
    rintro ⟨u, hu, -⟩
    exact hr ⟨u, by simpa using hu.symm⟩
  | succ k =>
    rw [copies_succ]
    constructor
    · rintro ⟨u, hu, hpad⟩
      have heq : copies cfg.protocolName k ++ r = u := by simpa using hu
      rw [Nat.add_sub_cancel, heq]
      exact ⟨Nat.succ_ne_zero k, hpad⟩
    · rintro ⟨-, hpad⟩
      exact ⟨copies cfg.protocolName k ++ r, by simp, hpad⟩

section Words

variable {rest ws ws' : Text}

/-- The part of a text before the first white space is determined. -/
theorem eq_of_append_whitespace (hn : ∀ c ∈ name, isWhitespace c = false)
    (hv : ∀ c ∈ version, isWhitespace c = false) (hws : ∀ c ∈ ws', isWhitespace c = true)
    (h : name ++ ' ' :: rest = version ++ ws') : name = version ∧ ' ' :: rest = ws' := by
  let word : Char → Bool := fun c => !isWhitespace c
  have hl : (name ++ ' ' :: rest).takeWhile word = name := by
    rw [List.takeWhile_append_of_pos (by simpa [word] using hn)]
    simp [word, isWhitespace]
  have hr : (version ++ ws').takeWhile word = version := by
    rw [List.takeWhile_append_of_pos (by simpa [word] using hv)]
    cases ws' with
    | nil => simp
    | cons c ws' => simp [word, hws c List.mem_cons_self]
  have heq : name = version := by rw [← hl, h, hr]
  subst heq
  exact ⟨rfl, List.append_cancel_left h⟩

/-- A repeated name before the rest can only be the version if nothing else follows. -/
theorem padded_copies_succ (hne : name ≠ []) (hn : ∀ c ∈ name, isWhitespace c = false)
    (hv : ∀ c ∈ version, isWhitespace c = false) :
    Trim.Padded isWhitespace version (copies name (k + 1) ++ r) ↔
      k = 0 ∧ version = name ∧ Trim.Padded isWhitespace [] r := by
  have hsplit : copies name (k + 1) ++ r = name ++ ' ' :: (copies name k ++ r) := by
    simp [copies_succ]
  obtain ⟨c, name', rfl⟩ := List.exists_cons_of_ne_nil hne
  have hc : isWhitespace c = false := hn c List.mem_cons_self
  rw [hsplit]
  constructor
  · rintro ⟨ws, ws', hws, hws', h⟩
    have hnil : ws = [] := by
      cases ws with
      | nil => rfl
      | cons d ws =>
        obtain ⟨rfl, -⟩ := List.cons.inj h
        rw [hws c List.mem_cons_self] at hc
        cases hc
    subst hnil
    obtain ⟨rfl, rfl⟩ := eq_of_append_whitespace hn hv hws' h
    have hwhite : ∀ d ∈ copies (c :: name') k ++ r, isWhitespace d = true :=
      fun d hd => hws' d (List.mem_cons_of_mem _ hd)
    cases k with
    | zero => exact ⟨rfl, rfl, r, [], hwhite, by simp, by simp⟩
    | succ k =>
      rw [hwhite c (by simp [copies_succ])] at hc
      cases hc
  · rintro ⟨rfl, rfl, ws, ws', hws, hws', rfl⟩
    refine ⟨[], ' ' :: (ws ++ ws'), by simp, ?_, by simp⟩
    rw [List.forall_mem_cons]
    constructor
    · decide
    · intro d hd
      rcases List.mem_append.mp hd with hd | hd
      · exact hws d hd
      · exact hws' d hd

/-- With an empty name the copies are white space. -/
theorem padded_copies_nil (hv : ∀ c ∈ version, isWhitespace c = false) (k : ℕ) (r : Text) :
    Trim.Padded isWhitespace version (copies [] k ++ r) ↔ Trim.Padded isWhitespace version r := by
  have hwhite : ∀ c ∈ copies [] k, isWhitespace c = true := by
    intro c hc
    simp only [copies, List.nil_append, List.mem_flatten, List.mem_replicate] at hc
    obtain ⟨t, ⟨-, rfl⟩, hc⟩ := hc
    rw [List.mem_singleton.mp hc]
    decide
  rw [← Trim.trimBy_eq_iff hv, ← Trim.trimBy_eq_iff hv, Trim.trimBy_append_left hwhite]

end Words

variable {cfg : WsServerConfig} {snow : Snow}

theorem length_copies (name : Text) (k : ℕ) : (copies name k).length = k * (name.length + 1) := by
  induction k with
  | zero => simp
  | succ k ih =>
    rw [copies_succ, List.length_append, ih, List.length_append, List.length_singleton, add_mul,
      one_mul, add_comm]

/-- The number of copies and the rest are determined. -/
theorem copies_append_inj {k' : ℕ} {r' : Text} (hr : ¬ name ++ [' '] <+: r)
    (hr' : ¬ name ++ [' '] <+: r') (h : copies name k ++ r = copies name k' ++ r') :
    k = k' ∧ r = r' := by
  have hrest : r = r' := by rw [← trimStartMatches_copies hr, h, trimStartMatches_copies hr']
  subst hrest
  have hlen := congrArg List.length (List.append_cancel_right h)
  rw [length_copies, length_copies] at hlen
  exact ⟨Nat.eq_of_mul_eq_mul_right (Nat.succ_pos _) hlen, rfl⟩

theorem repeatedHello_copies (hr : ¬ cfg.protocolName ++ [' '] <+: r) :
    RepeatedHello cfg (copies cfg.protocolName k ++ r) ↔ cfg.protocolName ≠ [] ∧ 2 ≤ k ∧
      (Trim.Padded isWhitespace cfg.protocolVersion r ∨
        k = 2 ∧ cfg.protocolVersion = cfg.protocolName ∧ Trim.Padded isWhitespace [] r) := by
  constructor
  · rintro ⟨hne, k', r', hk, heq, hr', h⟩
    obtain ⟨rfl, rfl⟩ := copies_append_inj hr hr' heq
    exact ⟨hne, hk, h⟩
  · rintro ⟨hne, hk, h⟩
    exact ⟨hne, k, r, hk, rfl, hr, h⟩

/-- The check and the intended form differ exactly on the texts with repetitions. -/
theorem checkHello_iff (hn : validateProtocolString cfg.protocolName)
    (hv : validateProtocolString cfg.protocolVersion) (t : Text) :
    (checkHello cfg t = .ok () ↔ HelloText cfg t) ↔ ¬ RepeatedHello cfg t := by
  have hn' := not_isWhitespace hn
  have hv' := not_isWhitespace hv
  obtain ⟨k, r, rfl, hr⟩ := exists_copies cfg.protocolName t
  rw [checkHello_copies hv hr, helloText_copies hr, repeatedHello_copies hr]
  match k with
  | 0 => simp
  | 1 => simp
  | k + 2 =>
    have hk : k + 2 - 1 = k + 1 := rfl
    rw [hk]
    by_cases hne : cfg.protocolName = []
    · rw [hne, padded_copies_nil hv']
      simp
    · rw [padded_copies_succ hne hn' hv']
      -- a rest of white space is not a version, unless the version is empty
      have hnot : ¬ (Trim.Padded isWhitespace cfg.protocolVersion r ∧
          cfg.protocolVersion = cfg.protocolName ∧ Trim.Padded isWhitespace [] r) := by
        rintro ⟨hpad, heq, hwhite⟩
        rw [← Trim.trimBy_eq_iff hv'] at hpad
        rw [← Trim.trimBy_eq_iff (by simp), hpad, heq] at hwhite
        exact hne hwhite
      simp only [ne_eq, hne, not_false_eq_true, true_and, Nat.le_add_left, Nat.add_eq_right,
        Nat.add_eq_zero_iff, OfNat.ofNat_ne_zero, and_false]
      tauto

/-- The server answers with `PROTOCOL_ACCEPTED` to the intended form and rejects all else. -/
structure AnswersHello (snow : Snow) (cfg : WsServerConfig) (send : Message → Except Text Unit)
    (t : Text) : Prop where
  accepted : ((.hello : AcceptStage snow).next cfg send (some (.ok (.text t)))).1 =
    [.text protocolAccepted] ↔ HelloText cfg t
  rejected : ((.hello : AcceptStage snow).next cfg send (some (.ok (.text t)))).1 =
    [.text (protocolRejected ++ ' ' :: cfg.protocolVersion)] ↔ ¬ HelloText cfg t

/-- The answer to any text is the intended one exactly if the text has no repetition that matters. -/
theorem answersHello_iff (send : Message → Except Text Unit)
    (hn : validateProtocolString cfg.protocolName)
    (hv : validateProtocolString cfg.protocolVersion) (t : Text) :
    AnswersHello snow cfg send t ↔ ¬ RepeatedHello cfg t := by
  have hne : protocolRejected ++ ' ' :: cfg.protocolVersion ≠ protocolAccepted := by
    intro he
    have hpre : protocolRejected <+: protocolAccepted := ⟨_, he⟩
    exact absurd hpre (by decide)
  have hcheck := checkHello_iff hn hv t
  rcases hc : checkHello cfg t with e | ⟨⟩
  · rw [hc] at hcheck
    rw [← hcheck]
    constructor
    · rintro ⟨haccepted, -⟩
      simpa [AcceptStage.next, hc, hne] using haccepted
    · intro h
      constructor
      · simpa [AcceptStage.next, hc, hne] using h
      · simpa [AcceptStage.next, hc] using h
  · rw [hc] at hcheck
    rw [← hcheck]
    constructor
    · rintro ⟨haccepted, -⟩
      simpa [AcceptStage.next, hc] using haccepted
    · intro h
      constructor
      · simpa [AcceptStage.next, hc] using h
      · simpa [AcceptStage.next, hc, hne.symm] using h

/-- The hello of a client of the default configuration. -/
theorem answersHello_iff_sample :
    AnswersHello (Snow.ideal Ideal.genuine) .sample (fun _ => .ok ()) "NOTIFI_APP 1.0.0\n".toList ↔
      ¬ RepeatedHello .sample "NOTIFI_APP 1.0.0\n".toList :=
  answersHello_iff _ (by decide) (by decide) _

/-- A repeated name is accepted. -/
theorem answersHello_repeated :
    ((.hello : AcceptStage (Snow.ideal Ideal.genuine)).next .sample (fun _ => .ok ())
      (some (.ok (.text "NOTIFI_APP NOTIFI_APP 1.0.0".toList)))).1 = [.text protocolAccepted] ∧
    ¬ HelloText .sample "NOTIFI_APP NOTIFI_APP 1.0.0".toList := by
  constructor
  · decide +kernel
  · rintro ⟨r, hr, hpad⟩
    have hrest : r = "NOTIFI_APP 1.0.0".toList := by
      have hdrop := congrArg (List.drop 11) hr
      exact hdrop.symm
    rw [← Trim.trimBy_eq_iff (not_isWhitespace (by decide)), hrest] at hpad
    revert hpad
    decide

end NotifiTransport

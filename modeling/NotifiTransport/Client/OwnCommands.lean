import NotifiTransport.Client.LoopRun
import NotifiTransport.Client.Online
import NotifiTransport.Crypto.Ideal
import NotifiTransport.Frame.Postcard
import NotifiTransport.Lib.Past

/-! # Attempts with auto-reconnect off

The flag is read in one place, after the message loop. There the loop waits for a command, and so
it does after a rejected protocol version. An attempt that fails goes back to the top without
reading the flag, and `wake` ends the wait after `Unauthorized` with no command to reconnect.
-/

namespace NotifiTransport

/-- What a step of the loop means for the question which command an attempt belongs to. -/
inductive Mark where
  | dial
  /-- `Reconnect` or `EndpointChanged` was taken from the channel. -/
  | command
  /-- An attempt has failed. -/
  | failed
  /-- Another command has ended the wait after a rejection. -/
  | woken
  deriving DecidableEq

/-- The loop goes back to the top with no command to reconnect. -/
def Mark.unasked : Mark → Bool
  | .failed | .woken => true
  | _ => false

def Phase.isConnecting {snow : Snow} : Phase snow → Bool
  | .connecting _ => true
  | _ => false

namespace Loop

variable {snow : Snow} {pc : Postcard} {cfg : WsClientConfig} {now : ℕ} {l : Loop snow}
  {i : Input} {r : Loop snow × List Effect} {ms : List Mark}

/-- The marks of the step on `i` from `l` to `l'`. -/
def marks (l : Loop snow) (i : Input) (l' : Loop snow) : List Mark :=
  match i with
  | .cmd c =>
    if isControl c then [.command]
    else if l.phase.rejected && l'.phase.isTop then [.woken] else []
  | _ =>
    if l.phase.attempting then (if l'.phase.isTop then [.failed] else [])
    else if l'.phase.isConnecting then [.dial] else []

/-- A command was taken since the last attempt began. -/
def Asked : List Mark → Prop := Trace.Since (· = .command) (· = .dial)

/-- The loop went back to the top unasked, and no command was taken since. -/
def Unasked : List Mark → Prop := Trace.Since (·.unasked) (· = .command)

theorem asked_concat {m : Mark} :
    Asked (ms ++ [m]) ↔ m = .command ∨ m ≠ .dial ∧ Asked ms := Trace.since_concat

theorem unasked_concat {m : Mark} :
    Unasked (ms ++ [m]) ↔ m.unasked ∨ m ≠ .command ∧ Unasked ms := Trace.since_concat

theorem marks_cmd (l l' : Loop snow) (c : ClientCmd) : l.marks (.cmd c) l' =
    if isControl c then [.command]
    else if l.phase.rejected && l'.phase.isTop then [.woken] else [] := rfl

theorem marks_of_ne_cmd {l' : Loop snow} (hi : ∀ c, i ≠ .cmd c) : l.marks i l' =
    if l.phase.attempting then (if l'.phase.isTop then [.failed] else [])
    else if l'.phase.isConnecting then [.dial] else [] := by
  unfold marks
  split
  · exact absurd rfl (hi _)
  · rfl

theorem marks_eq_nil {l' : Loop snow} (hi : ∀ c, i ≠ .cmd c) (ha : ¬ l.phase.attempting)
    (hc : ¬ l'.phase.isConnecting) : l.marks i l' = [] := by
  rw [marks_of_ne_cmd hi, if_neg ha, if_neg hc]

theorem marks_of_attempting (ha : l.phase.attempting) (h : l.step pc cfg now i = some r) :
    l.marks i r.1 = if r.1.phase.isTop then [.failed] else [] := by
  rw [marks_of_ne_cmd, if_pos ha]
  rintro c rfl
  rw [step_cmd_of_attempting ha] at h
  cases h

/-- What the marks `ms` of a run since `Online` say about a loop, which may be shut down: on its way
to an attempt a command has asked for it, exactly if it is not there unasked. -/
structure Tracked (cancelled : Bool) (l : Loop snow) (ms : List Mark) : Prop where

  approaching : l.phase.approaching → cancelled ∧ l.phase = .top ∨ (Asked ms ↔ ¬ Unasked ms)

  dialed : l.phase.attempting ∨ l.phase.rejected → ¬ Asked ms

theorem Tracked.of_not {cancelled : Bool} (ha : ¬ l.phase.approaching) (hd : ¬ l.phase.attempting)
    (hr : ¬ l.phase.rejected) : Tracked cancelled l ms where
  approaching h := absurd h ha
  dialed h := absurd h (not_or.mpr ⟨hd, hr⟩)

theorem tracked_command {cancelled : Bool} (hd : ¬ l.phase.attempting) (hr : ¬ l.phase.rejected) :
    Tracked cancelled l (ms ++ [.command]) where
  approaching _ := by simp [asked_concat, unasked_concat, Mark.unasked]
  dialed h := absurd h (not_or.mpr ⟨hd, hr⟩)

/-- Nothing is asked for in `ms`, and the loop is back at the top. -/
theorem tracked_unasked {cancelled : Bool} {m : Mark} (hn : ¬ Asked ms) (hm : m.unasked)
    (hp : r.1.phase = .top) : Tracked cancelled r.1 (ms ++ [m]) where
  approaching _ := by
    have hc : m ≠ .command := by
      rintro rfl
      cases hm
    simp [asked_concat, unasked_concat, hn, hm, hc]
  dialed h := by simp [hp, Phase.attempting, Phase.rejected] at h

theorem tracked_dial {cancelled : Bool} (ha : ¬ l.phase.approaching) :
    Tracked cancelled l (ms ++ [.dial]) where
  approaching h := absurd h ha
  dialed _ := by simp [asked_concat]

theorem wokenBy_of_rejected {c : ClientCmd} (hp : l.phase.rejected) (hc : isControl c) :
    l.wokenBy c := by
  cases hl : l.phase <;> rw [hl] at hp <;> cases hp <;> cases c <;> cases hc <;>
    simp [wokenBy, hl, isControl, isWake]

theorem tracked_inside {cancelled : Bool} {phase : Phase snow}
    (hp : phase.attempting ∨ phase.rejected) (hn : ¬ Asked ms) : Tracked cancelled (l.goto phase)
      (ms ++ if (l.goto phase).phase.isTop then [.failed] else []) := by
  have hnot : phase.isTop = false ∧ phase.approaching = false := by
    revert hp
    cases phase <;> simp [Phase.isTop, Phase.approaching, Phase.attempting, Phase.rejected]
  simp only [goto, hnot.1, Bool.false_eq_true, if_false, List.append_nil]
  refine ⟨fun h => ?_, fun _ => hn⟩
  rw [hnot.2] at h
  cases h

theorem Attempted.tracked {cancelled : Bool} (ha : Attempted cfg now l r) (hn : ¬ Asked ms) :
    Tracked cancelled r.1 (ms ++ if r.1.phase.isTop then [.failed] else []) := by
  cases ha with
  | goesOn hp => exact tracked_inside (Or.inl hp) hn
  | failed => exact tracked_unasked (r := (l.retry, [])) hn rfl rfl
  | rejected hp => exact tracked_inside (Or.inr hp) hn
  | online => exact .of_not Bool.false_ne_true Bool.false_ne_true Bool.false_ne_true

/-- A command that is taken outside attempts and the message loop. -/
theorem Tracked.cmd {cancelled : Bool} {c : ClientCmd} (ht : Tracked cancelled l ms)
    (hp : l.phase.receives) : Tracked cancelled (if l.wokenBy c then l.woken c else l)
      (ms ++ l.marks (.cmd c) (if l.wokenBy c then l.woken c else l)) := by
  have hrest : ¬ l.phase.attempting := Phase.not_attempting_of_receives hp
  rw [marks_cmd]
  by_cases hc : isControl c
  · rw [if_pos hc]
    split
    · apply tracked_command <;> rw [woken_phase] <;> exact Bool.false_ne_true
    · next hw =>
      apply tracked_command hrest
      intro hr
      exact hw (wokenBy_of_rejected hr hc)
  rw [if_neg hc]
  split
  · next hw =>
    rw [woken_phase]
    by_cases hr : l.phase.rejected
    · rw [hr]
      exact tracked_unasked (r := (l.woken c, [])) (ht.dialed (Or.inr hr)) rfl (woken_phase l c)
    · -- only the backoff is interrupted by other commands
      have hback : l.phase.approaching ∧ l.phase ≠ .top := by
        cases hl : l.phase <;> rw [hl] at hp hr <;> cases hp <;> simp [wokenBy, hl] at hw hr
        case parked =>
          cases c <;> cases hw
          exact absurd rfl hc
        case manual => exact absurd hw hc
        case backoff => exact ⟨rfl, by simp⟩
        all_goals cases hr
      have hiff := (ht.approaching hback.1).resolve_left fun h => hback.2 h.2
      simp only [hr, Bool.false_and, Bool.false_eq_true, if_false, List.append_nil]
      refine ⟨fun _ => Or.inr hiff, fun h => ?_⟩
      rw [woken_phase] at h
      rcases h with h | h <;> cases h
  · have htop : l.phase.isTop = false := by
      revert hp
      cases l.phase <;> simp [Phase.receives, Phase.isTop]
    simpa [htop] using ht

theorem Tracked.endpoint {cancelled : Bool} {u : Option Text} (ht : Tracked cancelled l ms)
    (hl : l.phase = .readUrl) : Tracked cancelled (l.onUrl cfg now u).1
      (ms ++ l.marks (.url u) (l.onUrl cfg now u).1) := by
  have hiff : Asked ms ↔ ¬ Unasked ms := by
    apply (ht.approaching (by rw [hl]; rfl)).resolve_left
    rintro ⟨-, htop⟩
    rw [hl] at htop
    cases htop
  have hmarks : ∀ l' : Loop snow, l.marks (.url u) l' =
      if l'.phase.isConnecting then [.dial] else [] := by
    intro l'
    rw [marks_of_ne_cmd (by simp), hl]
    rfl
  rw [hmarks]
  rcases l.onUrl_cases cfg now u with
    ⟨-, hu⟩ | ⟨url, -, ⟨-, hu⟩ | ⟨d, -, ⟨-, hu⟩ | ⟨-, hu⟩⟩⟩ <;> rw [hu]
  · refine ⟨fun _ => Or.inr (by simpa [goto, Phase.isConnecting] using hiff), ?_⟩
    rintro (h | h) <;> cases h
  · exact .of_not Bool.false_ne_true Bool.false_ne_true Bool.false_ne_true
  · refine ⟨fun _ => Or.inr (by simpa [goto, Phase.isConnecting] using hiff), ?_⟩
    rintro (h | h) <;> cases h
  · exact tracked_dial Bool.false_ne_true

/-- A step that reads the flags as they are, with auto-reconnect off. -/
theorem Tracked.step {cancelled : Bool} (ht : Tracked cancelled l ms)
    (hflag : ∀ b, i = .cancelFlag b → cancelled = b) (hcancel : i = .cancelled → cancelled)
    (hauto : i ≠ .autoReconnect true) (h : l.step pc cfg now i = some r) :
    Tracked cancelled r.1 (ms ++ l.marks i r.1) := by
  rcases step_cases h with ⟨ha, hs⟩ | hr | ⟨url, m, x, hl, -, -, hr⟩
  · rw [marks_of_attempting ha h]
    exact hs.tracked (ht.dialed (Or.inl ha))
  · cases hr with
    | flag b hl =>
      have hnot : ¬ (l.goto (if b then .stopped else .readUrl)).phase.isConnecting := by
        cases b <;> exact Bool.false_ne_true
      rw [marks_eq_nil (by simp) (by simp [hl, Phase.attempting]) hnot, List.append_nil]
      cases b with
      | true => exact .of_not Bool.false_ne_true Bool.false_ne_true Bool.false_ne_true
      | false =>
        refine ⟨fun _ => Or.inr ?_, by rintro (h | h) <;> cases h⟩
        apply (ht.approaching (by rw [hl]; rfl)).resolve_left
        rintro ⟨hc, -⟩
        rw [hflag false rfl] at hc
        cases hc
    | endpoint u hl => exact ht.endpoint hl
    | @idle c hp hw =>
      have hcmd := ht.cmd (c := c) hp
      rwa [if_neg hw] at hcmd
    | @woken c hp hw =>
      have hcmd := ht.cmd (c := c) hp
      rwa [if_pos hw] at hcmd
    | released hp =>
      have hrest : ¬ l.phase.attempting := Phase.not_attempting_of_receives hp
      rcases l.released_phase with hn | ⟨hn, -⟩ <;>
        rw [marks_eq_nil (by simp) hrest (by simp [hn, Phase.isConnecting]), List.append_nil]
      · apply Tracked.of_not <;> rw [hn] <;> exact Bool.false_ne_true
      · refine ⟨fun _ => Or.inl ⟨hcancel rfl, hn⟩, fun h => ?_⟩
        rw [hn] at h
        rcases h with h | h <;> cases h
    | elapsed hl =>
      rw [marks_of_ne_cmd (by simp), hl]
      exact tracked_dial Bool.false_ne_true
    | disconnected hl =>
      exact .of_not Bool.false_ne_true Bool.false_ne_true Bool.false_ne_true
    | auto b hl =>
      cases b with
      | true => exact absurd rfl hauto
      | false => exact .of_not Bool.false_ne_true Bool.false_ne_true Bool.false_ne_true
  · rcases hr with ⟨-, hr⟩ | ⟨m', -, hr⟩ <;> rw [hr] <;>
      exact .of_not Bool.false_ne_true Bool.false_ne_true Bool.false_ne_true

theorem Attempted.not_dial (ha : Attempted cfg now l r) (url : Text) : .dial url ∉ r.2 := by
  intro hm
  rcases ha.effects hm with he | he | ⟨s, -, he⟩ <;> cases he

/-- A step is marked as a dial exactly if it dials, and it does so on the way from the top. -/
theorem step_dials (h : l.step pc cfg now i = some r) :
    (l.marks i r.1 = [.dial] ∧ (∃ url, .dial url ∈ r.2) ∧ l.phase.approaching ∧ l.phase ≠ .top) ∨
      .dial ∉ l.marks i r.1 ∧ ∀ url, .dial url ∉ r.2 := by
  rcases step_cases h with ⟨ha, hs⟩ | hr | ⟨url, m, x, hl, hx, ho, hr⟩
  · refine Or.inr ⟨?_, hs.not_dial⟩
    rw [marks_of_attempting ha h]
    split <;> simp
  · cases hr with
    | flag b hl =>
      refine Or.inr ⟨?_, by simp⟩
      cases b <;> simp [marks, hl, goto, Phase.attempting, Phase.isConnecting]
    | endpoint u hl =>
      rcases l.onUrl_cases cfg now u with
        ⟨-, hu⟩ | ⟨url, -, ⟨-, hu⟩ | ⟨d, -, ⟨-, hu⟩ | ⟨-, hu⟩⟩⟩ <;> rw [hu]
      · exact Or.inr ⟨by simp [marks, hl, goto, Phase.attempting, Phase.isConnecting], by simp⟩
      · exact Or.inr ⟨by simp [marks, hl, goto, Phase.attempting, Phase.isConnecting], by simp⟩
      · refine Or.inr ⟨by simp [marks, hl, goto, Phase.attempting, Phase.isConnecting], ?_⟩
        split <;> simp
      · exact Or.inl ⟨by simp [marks, hl, goto, Phase.attempting, Phase.isConnecting],
          ⟨url, by simp⟩, by rw [hl]; rfl, by simp [hl]⟩
    | idle | woken =>
      refine Or.inr ⟨?_, by simp⟩
      rw [marks_cmd]
      split <;> [simp; split] <;> simp
    | released hp =>
      refine Or.inr ⟨?_, by simp⟩
      rw [marks_of_ne_cmd (by simp)]
      rcases l.released_phase with hn | ⟨hn, -⟩ <;> rw [hn] <;> split <;>
        simp [Phase.isTop, Phase.isConnecting]
    | elapsed hl =>
      exact Or.inl ⟨by simp [marks, hl, dial, goto, Phase.attempting, Phase.isConnecting],
        ⟨_, by simp [dial]; rfl⟩, by rw [hl]; rfl, by simp [hl]⟩
    | disconnected hl =>
      exact Or.inr ⟨by simp [marks, hl, goto, Phase.attempting, Phase.isConnecting], by simp⟩
    | auto b hl =>
      refine Or.inr ⟨?_, by simp⟩
      cases b <;> simp [marks, hl, goto, Phase.attempting, Phase.isConnecting]
  · refine Or.inr ⟨?_, ?_⟩
    · unfold marks
      split
      · split <;> [simp; split] <;> simp
      · rcases hr with ⟨-, hr⟩ | ⟨m', -, hr⟩ <;> rw [hr] <;>
          simp [hl, goto, Phase.attempting, Phase.isConnecting]
    · intro url' hm
      rw [ho] at hm
      exact absurd (MsgLoop.step_isTraffic hx _ hm) (by simp [Effect.isTraffic])

end Loop

namespace WsClient

variable {snow : Snow} {pc : Postcard} {cfg : WsClientConfig} {parses : Text → Bool}
  {w w' : WsClient snow} {es : List Event} {ms : List Mark}

/-- The marks of the step on `e` from `w` to `w'`. -/
def marks (w : WsClient snow) (e : Event) (w' : WsClient snow) : List Mark :=
  match e with
  | .loop i => w.loop.marks i w'.loop
  | _ => []

theorem step_tracked {e : Event} {o : List Output} (ha : w.autoReconnect = false)
    (ht : w.loop.Tracked w.cancelled ms) (h : w.step pc cfg parses e = some (w', o)) :
    w'.loop.Tracked w'.cancelled (ms ++ w.marks e w') := by
  have hcancel : w.cancelled → w'.cancelled := step_cancelled h
  rcases step_loop_cases h with ⟨hl, -, hne⟩ | ⟨i, r, rfl, ho, hr, hl, -⟩
  · have hm : w.marks e w' = [] := by
      cases e with
      | loop i => exact absurd rfl (hne i)
      | _ => rfl
    rw [hm, List.append_nil, hl]
    refine ⟨fun hp => (ht.approaching hp).imp_left ?_, ht.dialed⟩
    exact fun hc => ⟨hcancel hc.1, hc.2⟩
  · rw [step_cancelled_eq h (by simp), hl]
    change r.1.Tracked w.cancelled (ms ++ w.loop.marks i w'.loop)
    rw [hl]
    refine ht.step ?_ ?_ ?_ hr
    · rintro b rfl
      simpa [offers] using ho
    · rintro rfl
      simpa [offers] using ho
    · rintro rfl
      simp [offers, ha] at ho

theorem run_tracked (hp : w.loop.phase = .offline) (ha : w.autoReconnect = false)
    (he : .setAutoReconnect true ∉ es)
    (h : ((machine pc cfg parses snow).watch marks).run w es = some (w', ms)) :
    w'.autoReconnect = false ∧ w'.loop.Tracked w'.cancelled ms := by
  refine Mealy.run_induction_along (G := fun _ e => e ≠ .setAutoReconnect true)
    (P := fun _ ms w' => w'.autoReconnect = false ∧ w'.loop.Tracked w'.cancelled ms) ?_ ?_ h ?_
  · refine ⟨ha, .of_not ?_ ?_ ?_⟩ <;> rw [hp] <;> exact Bool.false_ne_true
  · rintro _ ms m e m' _ _ ⟨ha, ht⟩ he hs
    obtain ⟨o, hst, rfl⟩ := Mealy.step_watch.mp hs
    exact ⟨step_autoReconnect hst he ha, step_tracked ha ht hst⟩
  · rintro pre e post rfl m u - rfl
    exact he (by simp)

/-- After a connection has dropped with auto-reconnect off, and while it stays off, every attempt
has a command of its own exactly if none is dialed while the loop is on its way unasked. -/
theorem run_asked_iff (hp : w.loop.phase = .offline) (ha : w.autoReconnect = false)
    (he : .setAutoReconnect true ∉ es)
    (h : ((machine pc cfg parses snow).watch marks).run w es = some (w', ms)) :
    Trace.Whenever (· = .dial) Loop.Asked ms ↔
      Trace.Whenever (· = .dial) (fun ms => ¬ Loop.Unasked ms) ms := by
  refine Mealy.run_whenever_iff ?_ h
  rintro pre e post rfl m u m' a x b hr hs rfl
  have ht := (run_tracked hp ha (fun hm => he (List.mem_append_left _ hm)) hr).2
  obtain ⟨o, hs, hm⟩ := Mealy.step_watch.mp hs
  rcases step_loop_cases hs with ⟨-, -, hne⟩ | ⟨i, r, rfl, -, hi, hl, -⟩
  · cases e with
    | loop i => exact absurd rfl (hne i)
    | _ => simp [marks] at hm
  · change a ++ .dial :: b = m.loop.marks i m'.loop at hm
    rw [hl] at hm
    rcases Loop.step_dials hi with ⟨hd, -, hap, htop⟩ | ⟨hd, -⟩
    · obtain rfl : a = [] := by
        have hone := hm.trans hd
        cases a with
        | nil => rfl
        | cons => simp at hone
      rw [List.append_nil]
      exact (ht.approaching hap).resolve_left fun hc => htop hc.2
    · exact absurd (hm ▸ by simp) hd

/-- A connection that has dropped with auto-reconnect off. -/
def droppedManual : List Event :=
  .setEndpoint "ws://a".toList :: .setAutoReconnect false ::
    (Loop.goingOnline "ws://a".toList).map (fun i => .loop i.2) ++ [.loop (.next none)]

/-- The user reconnects, and the server can not be reached. -/
def refusedManual : List Event :=
  [.loop .proceed, .loop (.autoReconnect false), .reconnect, .loop (.cmd .reconnect),
    .loop (.cancelFlag false), .loop (.url (some "ws://a".toList)),
    .loop (.connected (.error "refused".toList))]

/-- After another `reconnect` the loop dials again, asked. -/
theorem run_asked_iff_twice : ∃ w w' tr ms,
    (machine .wire .sample (fun _ => true) (Snow.ideal Ideal.genuine)).run new droppedManual =
        some (w, tr) ∧
      ((machine .wire .sample (fun _ => true) (Snow.ideal Ideal.genuine)).watch marks).run w
        (refusedManual ++ [.loop (.cancelFlag false), .loop (.url (some "ws://a".toList)),
          .reconnect, .loop (.cmd .reconnect), .loop (.cancelFlag false),
          .loop (.url (some "ws://a".toList))]) = some (w', ms) ∧
      ms = [.command, .dial, .failed, .command, .dial] ∧
      (Trace.Whenever (· = .dial) Loop.Asked ms ↔
        Trace.Whenever (· = .dial) (fun ms => ¬ Loop.Unasked ms) ms) := by
  let M := machine .wire .sample (fun _ => true) (Snow.ideal Ideal.genuine)
  let x := M.run new droppedManual
  have hx : x = some (x.get rfl) := (Option.some_get rfl).symm
  let y := (M.watch marks).run (x.get rfl).1 (refusedManual ++ [Event.loop (.cancelFlag false),
    Event.loop (.url (some "ws://a".toList)), Event.reconnect, Event.loop (.cmd .reconnect),
    Event.loop (.cancelFlag false), Event.loop (.url (some "ws://a".toList))])
  have hms : y.map (·.2) = some [.command, .dial, .failed, .command, .dial] := by decide +kernel
  obtain ⟨⟨w', ms⟩, hy, rfl⟩ := Option.map_eq_some_iff.mp hms
  exact ⟨_, w', _, _, hx, hy, rfl, run_asked_iff rfl rfl (by decide) hy⟩

/-- After the failed attempt the loop dials again on its own, when the backoff is over. -/
theorem run_dials_unasked : ∃ w w' tr ms,
    (machine .wire .sample (fun _ => true) (Snow.ideal Ideal.genuine)).run new droppedManual =
        some (w, tr) ∧
      w.loop.phase = .offline ∧ w.autoReconnect = false ∧
      ((machine .wire .sample (fun _ => true) (Snow.ideal Ideal.genuine)).watch marks).run w
        (refusedManual ++ [.loop (.cancelFlag false), .loop (.url (some "ws://a".toList)),
          .tick 2000000000, .loop .elapsed]) = some (w', ms) ∧
      w'.autoReconnect = false ∧ ¬ Trace.Whenever (· = .dial) Loop.Asked ms := by
  let M := machine .wire .sample (fun _ => true) (Snow.ideal Ideal.genuine)
  let x := M.run new droppedManual
  have hx : x = some (x.get rfl) := (Option.some_get rfl).symm
  let y := (M.watch marks).run (x.get rfl).1 (refusedManual ++ [Event.loop (.cancelFlag false),
    Event.loop (.url (some "ws://a".toList)), Event.tick 2000000000, Event.loop .elapsed])
  have hms : y.map (fun r => (r.1.autoReconnect, r.2)) =
    some (false, [Mark.command, Mark.dial, Mark.failed] ++ [Mark.dial]) := by decide +kernel
  obtain ⟨⟨w', ms⟩, hy, hout⟩ := Option.map_eq_some_iff.mp hms
  obtain ⟨ha, rfl⟩ := Prod.mk.inj hout
  refine ⟨_, w', _, _, hx, rfl, rfl, hy, ha, ?_⟩
  intro h
  have hasked : Loop.Asked ([Mark.command] ++ [Mark.dial] ++ [Mark.failed]) := h _ .dial [] rfl rfl
  rw [Loop.asked_concat, Loop.asked_concat] at hasked
  simp at hasked

end WsClient

end NotifiTransport

import NotifiTransport.Client.Connection
import NotifiTransport.Crypto.Ideal
import NotifiTransport.Frame.Postcard
import NotifiTransport.Server.Accept
import Mathlib.Data.List.TakeWhile

/-! # The two ends of the version handshake

The server compares the client's name and version with its own. The client looks for keywords
anywhere in the answer, and an answer that rejects it ends with the server's version. The two
ends agree unless that version contains the keyword of acceptance.
-/

namespace NotifiTransport

section Texts

variable {α : Type*} {w x y x' y' : List α} {a : α}

/-- A pattern without `a` occurs before `a` or after it. -/
theorem infix_append_cons_iff (ha : a ∉ w) : w <:+: x ++ a :: y ↔ w <:+: x ∨ w <:+: y := by
  constructor
  · rintro ⟨s, t, h⟩
    rcases List.append_eq_append_iff.mp h with ⟨u, hx, -⟩ | ⟨u, hsw, hu⟩
    · exact Or.inl ⟨s, u, hx.symm⟩
    · rcases u with _ | ⟨b, u⟩
      · rw [List.append_nil] at hsw
        exact Or.inl ⟨s, [], by rw [List.append_nil, hsw]⟩
      · obtain ⟨rfl, rfl⟩ := List.cons.inj hu
        rcases List.append_eq_append_iff.mp hsw with ⟨v, hx, hw⟩ | ⟨v, -, hv⟩
        · rw [hw] at ha
          simp at ha
        · rcases v with _ | ⟨c, v⟩
          · rw [List.nil_append] at hv
            rw [← hv] at ha
            simp at ha
          · obtain ⟨rfl, rfl⟩ := List.cons.inj hv
            exact Or.inr ⟨v, t, by simp⟩
  · rintro (h | h)
    · exact h.trans (List.prefix_append _ _).isInfix
    · exact h.trans (List.suffix_append_of_suffix (List.suffix_cons a y)).isInfix

/-- The part before the first `a` is determined. -/
theorem append_cons_prefix_iff (hx : a ∉ x) (hx' : a ∉ x') :
    x ++ [a] <+: x' ++ a :: y' ↔ x = x' := by
  constructor
  · rintro ⟨t, h⟩
    rw [List.append_assoc, List.singleton_append] at h
    rcases List.append_eq_append_iff.mp h with ⟨u, rfl, hu⟩ | ⟨u, rfl, hu⟩
    · rcases u with _ | ⟨b, u⟩
      · rw [List.append_nil]
      · obtain ⟨rfl, -⟩ := List.cons.inj hu
        simp at hx'
    · rcases u with _ | ⟨b, u⟩
      · rw [List.append_nil]
      · obtain ⟨rfl, -⟩ := List.cons.inj hu
        simp at hx
  · rintro rfl
    exact ⟨y', by simp⟩

end Texts

theorem isWhitespace_of_valid {c : Char}
    (h : (c.isAlphanum || c == '.' || c == '-' || c == '_') = true) : isWhitespace c = false := by
  have hr : 0x2d ≤ c.toNat ∧ c.toNat ≤ 0x7a := by
    delta Char.isAlphanum Char.isAlpha Char.isUpper Char.isLower Char.isDigit at h
    simp only [Bool.or_eq_true, Bool.and_eq_true, decide_eq_true_eq, beq_iff_eq, ge_iff_le,
      UInt32.le_iff_toNat_le] at h
    rcases h with ((((h | h) | h) | rfl) | rfl) | rfl
    · exact ⟨le_trans (by decide) h.1, h.2.trans (by decide)⟩
    · exact ⟨le_trans (by decide) h.1, h.2.trans (by decide)⟩
    · exact ⟨le_trans (by decide) h.1, h.2.trans (by decide)⟩
    all_goals decide
  simp only [isWhitespace, Bool.or_eq_false_iff, Bool.and_eq_false_iff, decide_eq_false_iff_not,
    beq_eq_false_iff_ne]
  omega

/-- A protocol string has no white space. -/
theorem not_isWhitespace {t : Text} (h : validateProtocolString t) :
    ∀ c ∈ t, isWhitespace c = false :=
  fun c hc => isWhitespace_of_valid (List.all_eq_true.mp h c hc)

theorem space_not_mem {t : Text} (h : validateProtocolString t) : ' ' ∉ t := by
  intro hm
  have hw := not_isWhitespace h ' ' hm
  revert hw
  decide

theorem dropWhile_isWhitespace {t : Text} (h : ∀ c ∈ t, isWhitespace c = false) :
    t.dropWhile isWhitespace = t := by
  rw [List.dropWhile_eq_self_iff]
  intro hl
  rw [h _ (List.getElem_mem hl)]
  simp

theorem trim_of_valid {t : Text} (h : validateProtocolString t) : trim t = t := by
  have hw := not_isWhitespace h
  have hr : ∀ c ∈ t.reverse, isWhitespace c = false := fun c hc => hw c (List.mem_reverse.mp hc)
  rw [trim, dropWhile_isWhitespace hw, dropWhile_isWhitespace hr, List.reverse_reverse]

theorem stripPrefix_append (pat t : Text) : stripPrefix pat (pat ++ t) = some t := by
  simp [stripPrefix]

/-- A name and a space are removed once from the text that they begin. -/
theorem trimStartMatches_hello {name version : Text} (hv : ' ' ∉ version) :
    trimStartMatches (name ++ [' ']) (name ++ ' ' :: version) = version := by
  have hrest : ∀ n, trimStartMatchesUpTo (name ++ [' ']) n version = version := by
    intro n
    cases n with
    | zero => rfl
    | succ n =>
      have hp : ¬ name ++ [' '] <+: version := by
        rintro ⟨t, rfl⟩
        simp at hv
      simp [trimStartMatchesUpTo, stripPrefix, hp]
  have hlen : (name ++ ' ' :: version).length = (name.length + version.length) + 1 := by
    simp
    omega
  have hsplit : name ++ ' ' :: version = (name ++ [' ']) ++ version := by simp
  rw [trimStartMatches, hlen, trimStartMatchesUpTo, hsplit, stripPrefix_append]
  exact hrest _

/-- What `handle_version_handshake` sends. -/
def hello (cfg : WsClientConfig) : Text := cfg.protocolName ++ [' '] ++ cfg.protocolVersion

/-- The two ends have the same protocol. -/
def SameProtocol (cfg : WsClientConfig) (server : WsServerConfig) : Prop :=
  cfg.protocolName = server.protocolName ∧ cfg.protocolVersion = server.protocolVersion

variable {cfg : WsClientConfig} {server : WsServerConfig}

/-- The server accepts the hello of a client exactly if the two have the same protocol. -/
theorem checkHello_hello (hn : validateProtocolString cfg.protocolName)
    (hv : validateProtocolString cfg.protocolVersion)
    (hn' : validateProtocolString server.protocolName) :
    checkHello server (hello cfg) = .ok () ↔ SameProtocol cfg server := by
  have hhello : hello cfg = cfg.protocolName ++ ' ' :: cfg.protocolVersion := by simp [hello]
  rw [checkHello, hhello]
  dsimp only
  by_cases hname : cfg.protocolName = server.protocolName
  · rw [if_pos ((append_cons_prefix_iff (space_not_mem hn') (space_not_mem hn)).mpr hname.symm),
      ← hname, trimStartMatches_hello (space_not_mem hv), trim_of_valid hv]
    split
    · next h => simp [SameProtocol, hname, h]
    · next h => simp [SameProtocol, h]
  · rw [if_neg fun h => hname
      ((append_cons_prefix_iff (space_not_mem hn') (space_not_mem hn)).mp h).symm]
    simp [SameProtocol, hname]

theorem versionReply_accepted_text :
    versionReply (some (.ok (.text protocolAccepted))) = .accepted := by decide

/-- A rejection is read as one unless the version contains the keyword of acceptance. -/
theorem versionReply_rejected {version : Text} (hv : validateProtocolString version) :
    versionReply (some (.ok (.text (protocolRejected ++ ' ' :: version)))) =
      if protocolAccepted <:+: version then .accepted else .rejected version := by
  have hspace : ' ' ∉ protocolAccepted := by decide
  have hkeys : ¬ protocolAccepted <:+: protocolRejected := by decide
  have hacc : protocolAccepted <:+: protocolRejected ++ ' ' :: version ↔
      protocolAccepted <:+: version := by
    rw [infix_append_cons_iff hspace]
    exact or_iff_right hkeys
  have hrej : protocolRejected <:+: protocolRejected ++ ' ' :: version :=
    (List.prefix_append _ _).isInfix
  have hsplit : protocolRejected ++ ' ' :: version = (protocolRejected ++ [' ']) ++ version := by
    simp
  simp only [versionReply, hacc, hrej, if_true]
  rw [hsplit, stripPrefix_append, Option.getD_some, trim_of_valid hv]

/-- The client goes on to the Noise handshake, the server has accepted, and the two have the same
protocol, all or none of them; if not, the client publishes its version and the server's. -/
structure Agrees {snow : Snow} (cfg : WsClientConfig) (server : WsServerConfig) (reply : Text)
    (r : Loop snow × List Effect) : Prop where
  noise : (∃ url, r.1.phase = .noiseKeypair url) ↔ reply = protocolAccepted
  accepted : reply = protocolAccepted ↔ SameProtocol cfg server
  mismatch : ¬ SameProtocol cfg server →
    .publish (.versionMismatch cfg.protocolVersion server.protocolVersion) ∈ r.2

/-- The answer of the server to the hello of a client. -/
theorem next_hello {snow : Snow} {send : Message → Except Text Unit} {reply : Text}
    (hn : validateProtocolString cfg.protocolName)
    (hv : validateProtocolString cfg.protocolVersion)
    (hn' : validateProtocolString server.protocolName)
    (h : ((.hello : AcceptStage snow).next server send (some (.ok (.text (hello cfg))))).1 =
      [.text reply]) :
    SameProtocol cfg server ∧ reply = protocolAccepted ∨
      ¬ SameProtocol cfg server ∧ reply = protocolRejected ++ ' ' :: server.protocolVersion := by
  rw [← checkHello_hello hn hv hn']
  simp only [AcceptStage.next] at h
  split at h
  · next e he =>
    rw [he]
    cases h
    exact Or.inr ⟨by simp, rfl⟩
  · next he =>
    rw [he]
    cases h
    exact Or.inl ⟨rfl, rfl⟩

namespace Loop

variable {snow snow' : Snow} {pc : Postcard} {now : ℕ} {l l₁ l₂ : Loop snow} {o₁ o₂ : List Effect}
  {r : Loop snow × List Effect}

theorem step_connected_ok (h : l.step pc cfg now (.connected (.ok ())) = some r) :
    ∃ url, l.phase = .connecting url ∧
      r = (l.goto (.sendHello url), [.publish .handshaking, .send (.text (hello cfg))]) := by
  cases hl : l.phase <;> simp only [step, hl, waitFor] at h
  case connecting url => exact ⟨url, rfl, (Option.some.inj h).symm⟩
  case online url m => cases hm : m.phase <;> simp [MsgLoop.step, hm] at h
  all_goals cases h

/-- The client's reading of the answer that the server gives to its hello. -/
theorem step_reply {t₁ t₂ t₃ : ℕ} {m reply : Text}
    (h₁ : l.step pc cfg t₁ (.connected (.ok ())) = some (l₁, o₁)) (ho : .send (.text m) ∈ o₁)
    (h₂ : l₁.step pc cfg t₂ (.sent (.ok ())) = some (l₂, o₂))
    (h₃ : l₂.step pc cfg t₃ (.next (some (.ok (.text reply)))) = some r) :
    m = hello cfg ∧
      ∃ url, r = l₂.onVersionReply cfg url (versionReply (some (.ok (.text reply)))) := by
  obtain ⟨url, -, hr⟩ := step_connected_ok h₁
  cases hr
  cases h₂
  cases h₃
  refine ⟨by simpa using ho, url, rfl⟩

/-- The version check of the client and that of the server agree exactly if they have the same
protocol, or the server's version does not contain `PROTOCOL_ACCEPTED`. -/
theorem version_agrees_iff {send : Message → Except Text Unit} {t₁ t₂ t₃ : ℕ} {m reply : Text}
    (hn : validateProtocolString cfg.protocolName)
    (hv : validateProtocolString cfg.protocolVersion)
    (hn' : validateProtocolString server.protocolName)
    (hv' : validateProtocolString server.protocolVersion)
    (h₁ : l.step pc cfg t₁ (.connected (.ok ())) = some (l₁, o₁)) (ho : .send (.text m) ∈ o₁)
    (h₂ : l₁.step pc cfg t₂ (.sent (.ok ())) = some (l₂, o₂))
    (hs : ((.hello : AcceptStage snow').next server send (some (.ok (.text m)))).1 = [.text reply])
    (h₃ : l₂.step pc cfg t₃ (.next (some (.ok (.text reply)))) = some r) :
    Agrees cfg server reply r ↔
      SameProtocol cfg server ∨ ¬ protocolAccepted <:+: server.protocolVersion := by
  obtain ⟨rfl, url, rfl⟩ := step_reply h₁ ho h₂ h₃
  rcases next_hello hn hv hn' hs with ⟨hp, rfl⟩ | ⟨hp, rfl⟩
  · rw [versionReply_accepted_text]
    exact iff_of_true ⟨by simp [onVersionReply, goto], by simp [hp], absurd hp⟩ (Or.inl hp)
  · have hne : protocolRejected ++ ' ' :: server.protocolVersion ≠ protocolAccepted := by
      intro he
      cases he
    rw [versionReply_rejected hv', or_iff_right hp]
    split
    · next hacc =>
      refine iff_of_false ?_ (not_not.mpr hacc)
      rintro ⟨hnoise, -, -⟩
      exact hne (hnoise.mp ⟨url, rfl⟩)
    · next hacc =>
      refine iff_of_true ⟨?_, ?_, ?_⟩ hacc
      · simp [onVersionReply, goto, hne]
      · simp [hne, hp]
      · simp [onVersionReply]

/-- A client that has just opened its socket. -/
def opened : Loop (Snow.ideal Ideal.genuine) := ⟨.connecting "ws://a".toList, 0, false⟩

/-- A server of the next version. -/
def nextVersion : WsServerConfig :=
  { WsServerConfig.sample with protocolVersion := "2.0.0".toList }

/-- One server accepts the client and another rejects it, and the client follows both. -/
theorem version_agrees_iff_sample : ∃ l₁ l₂ o₁ o₂ r r',
    opened.step .wire .sample 0 (.connected (.ok ())) = some (l₁, o₁) ∧
      l₁.step .wire .sample 0 (.sent (.ok ())) = some (l₂, o₂) ∧
      (l₂.step .wire .sample 0 (.next (some (.ok (.text protocolAccepted)))) = some r ∧
        Agrees .sample .sample protocolAccepted r) ∧
      l₂.step .wire .sample 0 (.next (some (.ok (.text
        (protocolRejected ++ ' ' :: nextVersion.protocolVersion))))) = some r' ∧
      Agrees .sample nextVersion (protocolRejected ++ ' ' :: nextVersion.protocolVersion) r' ∧
      ¬ SameProtocol .sample nextVersion := by
  let rejection := protocolRejected ++ ' ' :: nextVersion.protocolVersion
  let x := opened.step .wire .sample 0 (.connected (.ok ()))
  have hx : x = some ((x.get rfl).1, (x.get rfl).2) := rfl
  let y := (x.get rfl).1.step .wire .sample 0 (.sent (.ok ()))
  have hy : y = some ((y.get rfl).1, (y.get rfl).2) := rfl
  let z := (y.get rfl).1.step .wire .sample 0 (.next (some (.ok (.text protocolAccepted))))
  have hz : z = some (z.get rfl) := (Option.some_get rfl).symm
  let z' := (y.get rfl).1.step .wire .sample 0 (.next (some (.ok (.text rejection))))
  have hz' : z' = some (z'.get rfl) := (Option.some_get rfl).symm
  have hs : ((.hello : AcceptStage (Snow.ideal Ideal.genuine)).next .sample (fun _ => .ok ())
      (some (.ok (.text (hello .sample))))).1 = [.text protocolAccepted] := by decide +kernel
  have hs' : ((.hello : AcceptStage (Snow.ideal Ideal.genuine)).next nextVersion (fun _ => .ok ())
      (some (.ok (.text (hello .sample))))).1 = [.text rejection] := by decide +kernel
  refine ⟨_, _, _, _, _, _, hx, hy, ⟨hz, ?_⟩, hz', ?_, ?_⟩
  · exact (version_agrees_iff (by decide) (by decide) (by decide) (by decide) hx (by decide) hy hs
      hz).mpr (Or.inl ⟨rfl, rfl⟩)
  · exact (version_agrees_iff (by decide) (by decide) (by decide) (by decide) hx (by decide) hy hs'
      hz').mpr (Or.inr (by decide))
  · simp only [SameProtocol]
    decide

/-- A server whose version contains the keyword of acceptance. -/
def acceptingVersion : WsServerConfig :=
  { WsServerConfig.sample with protocolVersion := "2.0-PROTOCOL_ACCEPTED".toList }

/-- The server rejects the client, and the client goes on to the Noise handshake. -/
theorem version_disagrees : ∃ l o reply,
    ((.hello : AcceptStage (Snow.ideal Ideal.genuine)).next acceptingVersion (fun _ => .ok ())
        (some (.ok (.text (hello .sample))))).1 = [.text reply] ∧
      reply = protocolRejected ++ ' ' :: acceptingVersion.protocolVersion ∧
      validateProtocolString acceptingVersion.protocolVersion ∧
      (machine .wire .sample (Snow.ideal Ideal.genuine)).run opened
        [(0, .connected (.ok ())), (0, .sent (.ok ())), (0, .next (some (.ok (.text reply))))] =
          some (l, o) ∧
      l.phase = .noiseKeypair "ws://a".toList ∧ ¬ SameProtocol .sample acceptingVersion := by
  let reply := protocolRejected ++ ' ' :: acceptingVersion.protocolVersion
  let x := (machine .wire .sample (Snow.ideal Ideal.genuine)).run opened
    [(0, .connected (.ok ())), (0, .sent (.ok ())), (0, .next (some (.ok (.text reply))))]
  have hx : x = some (x.get rfl) := (Option.some_get rfl).symm
  refine ⟨_, _, reply, by decide +kernel, rfl, by decide, hx, rfl, ?_⟩
  simp only [SameProtocol]
  decide

end Loop

end NotifiTransport

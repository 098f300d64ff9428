import YumiBrowser.Network.HelloOnce

namespace YumiBrowser.Sudp

open Wire Ideal Transition
open YumiBrowser.Group (Registrar Identity PeerId PublicKey epochGetCurrent)

variable {ι : Type}

section Completion

variable (e : Around ι) (c : Client ι) (h : Handshake ι)

/-- What `sudp_process_response` wants of a RESPONSE of its peer: keys can be agreed on, the
signature is one of the peer's, and the CONFIRM goes out. -/
structure Concludes (msg : Response ι) (signKey : PublicKey) : Prop where
  exchange : ¬ (e.fails .mlkem ∨ e.fails .bp512 ∨ h.firstContact ∧ e.fails .frodo)
  signature : msg.signatureFor h.firstContact = some ⟨signKey, finalHash (feed h.transcript
    [.response msg.peerId msg.mlkemCt msg.bp512Pk (if h.firstContact then msg.frodoCt else none)])
    e.noise⟩
  epoch : epochGetCurrent e.reg ≠ none
  sign : e.fails .sign = false
  fragSend : e.fails .fragSend = false

def Completes : Message ι → Prop
  | .hello _ => False
  | .response msg => ∃ h peer, c.hs = some h ∧ h.state = .helloSent ∧
      ¬ (h.firstContact ∧ msg.frodoCt = none) ∧ msg.version = protocolVersion ∧
      e.reg.peers.find? msg.peerId = some peer ∧ peer.status = Group.PeerStatus.active ∧
      msg.peerId = h.peerId ∧ h.mlkem ≠ none ∧ h.bp512 ≠ none ∧ Concludes e h msg peer.signKey
  | .confirm msg => ∃ h peer, c.hs = some h ∧ h.state = .waitConfirm ∧
      msg.version = protocolVersion ∧ e.reg.peers.find? h.peerId = some peer ∧
      peer.status = Group.PeerStatus.active ∧ msg.signature.Verifies h.transcriptHash peer.signKey

/-- What becomes of the state of a session that takes a message. -/
structure Settles (completes : Prop) (c c' : Client ι) : Prop where
  established : completes → c'.state = .established ∧ c'.hs = none
  otherwise : ¬ completes → c'.state = c.state ∨ c'.state = .failed

variable {e c h}

theorem Settles.dropped {completes : Prop} (hnot : ¬ completes) : Settles completes c c :=
  ⟨fun hc => absurd hc hnot, fun _ => .inl rfl⟩

theorem Settles.fail {completes : Prop} (hnot : ¬ completes) (outs : List (Output ι)) :
    Settles completes c (Client.fail c' h outs).1 :=
  ⟨fun hc => absurd hc hnot, fun _ => .inr rfl⟩

theorem Completes.pending {e : Around ι} {c : Client ι} {msg : Message ι} (h : Completes e c msg) :
    c.hs ≠ none := by
  cases msg with
  | hello msg => exact h.elim
  | response msg =>
    obtain ⟨_, _, hhs, _⟩ := h
    rw [hhs]
    exact fun heq => nomatch heq
  | confirm msg =>
    obtain ⟨_, _, hhs, _⟩ := h
    rw [hhs]
    exact fun heq => nomatch heq

theorem state_processHello (e : Around ι) (c : Client ι) (h : Handshake ι) (msg : Hello ι) :
    (processHello e c h msg).1.state = c.state ∨ (processHello e c h msg).1.state = .failed := by
  rcases processHello_cases e c h msg with ⟨_, heq | heq⟩ | ⟨_, heq⟩
  · exact .inl (by rw [heq])
  · exact .inl (by rw [heq])
  · rw [heq]
    cases respond_cases e (becomeResponder e c msg)
        { h.yield with peerId := msg.peerId, firstContact := msg.firstContact ≠ 0 } msg with
    | inl hstop =>
      obtain ⟨h', outs, heq, _⟩ := hstop
      exact .inr (by rw [heq]; rfl)
    | inr hkeys =>
      obtain ⟨c', h', response, hkeys, _, _, _, _, _, heq⟩ := hkeys
      obtain ⟨_, _, rfl⟩ := Option.map_eq_some_iff.mp hkeys
      cases heq with
      | inl heq => exact .inr (by rw [heq]; rfl)
      | inr heq => exact .inl (by rw [heq]; rfl)

variable [DecidableEq ι]

theorem settles_concludeResponse (msg : Response ι) (signKey : PublicKey) (mlkem bp512 : Name ι) :
    Settles (Concludes e h msg signKey) c (concludeResponse e c h msg signKey mlkem bp512).1 := by
  unfold concludeResponse
  dsimp only
  have hverified (hc : Concludes e h msg signKey) := hc.signature
  have hconcludes (hexchange) (hsig) := @Concludes.mk ι e h msg signKey hexchange hsig
  generalize (if h.firstContact = true then msg.frodoCt else none) = frodoCt at *
  split
  · next hexchange => exact .fail (fun hc => hc.exchange hexchange) _
  · next hexchange =>
    split
    · next hsig => exact .fail (fun hc => hsig (hverified hc)) _
    · next hsig =>
      split
      · next hkeys =>
        have hepoch := Option.map_eq_none_iff.mp hkeys
        exact .fail (fun hc => hc.epoch hepoch) _
      · next c' hkeys =>
        have hepoch : epochGetCurrent e.reg ≠ none := by
          intro hnone
          rw [deriveKeys, hnone] at hkeys
          cases hkeys
        split
        · next hsign => exact .fail (fun hc => absurd hsign (by simp [hc.sign])) _
        · next hsign =>
          split
          · next hsend => exact .fail (fun hc => absurd hsend (by simp [hc.fragSend])) _
          · next hsend =>
            exact ⟨fun _ => ⟨rfl, rfl⟩, fun hnot => absurd (hconcludes hexchange (not_not.mp hsig) hepoch
              (by simpa using hsign) (by simpa using hsend)) hnot⟩

theorem settles_processResponse (msg : Response ι) (hhs : c.hs = some h) :
    Settles (Completes e c (.response msg)) c (processResponse e c h msg).1 := by
  have hctx : ∀ h', c.hs = some h' → h' = h := fun h' hh' => Option.some.inj (hh'.symm.trans hhs)
  unfold processResponse
  split
  · next hstate =>
    refine .dropped ?_
    rintro ⟨h', _, hh', hsent, _⟩
    exact hstate (hctx h' hh' ▸ hsent)
  · next hstate =>
    split
    · next hfrodo =>
      refine .dropped ?_
      rintro ⟨h', _, hh', _, hfirst, _⟩
      exact hfirst (hctx h' hh' ▸ hfrodo)
    · next hfrodo =>
      split
      · next hversion =>
        refine .dropped ?_
        rintro ⟨_, _, _, _, _, hv, _⟩
        exact hversion hv
      · next hversion =>
        split
        · next hnone =>
          refine .dropped ?_
          rintro ⟨_, _, _, _, _, _, hpeer, _⟩
          exact absurd (hnone.symm.trans hpeer) (by simp)
        · next peer hpeer =>
          split
          · next hinactive =>
            refine .dropped ?_
            rintro ⟨_, peer', _, _, _, _, hpeer', hactive, _⟩
            cases hpeer.symm.trans hpeer'
            exact hinactive hactive
          · next hactive =>
            split
            · next hid =>
              refine .dropped ?_
              rintro ⟨h', _, hh', _, _, _, _, _, hid', _⟩
              exact hid (hctx h' hh' ▸ hid')
            · next hid =>
              split
              · next mlkem bp512 hmlkem hbp512 =>
                have hsettles := settles_concludeResponse (e := e) (c := c) (h := h) msg peer.signKey
                  mlkem bp512
                refine ⟨?_, fun hnot => hsettles.otherwise fun hc => hnot ?_⟩
                · rintro ⟨h', peer', hh', _, _, _, hpeer', _, _, _, _, hc⟩
                  cases hpeer.symm.trans hpeer'
                  exact hsettles.established (hctx h' hh' ▸ hc)
                · exact ⟨h, peer, hhs, not_not.mp hstate, hfrodo, not_not.mp hversion, hpeer,
                    not_not.mp hactive, not_not.mp hid, by simp [hmlkem], by simp [hbp512], hc⟩
              · next hmissing =>
                refine .fail ?_ _
                rintro ⟨h', _, hh', _, _, _, _, _, _, hmlkem, hbp512, _⟩
                rw [hctx h' hh'] at hmlkem hbp512
                obtain ⟨mlkem, hmlkem⟩ := Option.ne_none_iff_exists'.mp hmlkem
                obtain ⟨bp512, hbp512⟩ := Option.ne_none_iff_exists'.mp hbp512
                exact hmissing mlkem bp512 hmlkem hbp512

theorem settles_processConfirm (msg : Confirm ι) (hhs : c.hs = some h) :
    Settles (Completes e c (.confirm msg)) c (processConfirm e c h msg).1 := by
  have hctx : ∀ h', c.hs = some h' → h' = h := fun h' hh' => Option.some.inj (hh'.symm.trans hhs)
  unfold processConfirm
  split
  · next hstate =>
    refine .dropped ?_
    rintro ⟨h', _, hh', hwaits, _⟩
    exact hstate (hctx h' hh' ▸ hwaits)
  · next hstate =>
    split
    · next hversion =>
      refine .dropped ?_
      rintro ⟨_, _, _, _, hv, _⟩
      exact hversion hv
    · next hversion =>
      split
      · next hnone =>
        refine .fail ?_ _
        rintro ⟨h', _, hh', _, _, hpeer, _⟩
        rw [hctx h' hh', hnone] at hpeer
        cases hpeer
      · next peer hpeer =>
        split
        · next hinactive =>
          refine .fail ?_ _
          rintro ⟨h', peer', hh', _, _, hpeer', hactive, _⟩
          rw [hctx h' hh', hpeer] at hpeer'
          cases hpeer'
          exact hinactive hactive
        · next hactive =>
          split
          · next hsig =>
            refine .fail ?_ _
            rintro ⟨h', peer', hh', _, _, hpeer', _, hverifies⟩
            rw [hctx h' hh', hpeer] at hpeer'
            cases hpeer'
            exact hsig (hctx h' hh' ▸ hverifies)
          · next hsig =>
            exact ⟨fun _ => ⟨rfl, rfl⟩, fun hnot => absurd ⟨h, peer, hhs, not_not.mp hstate,
              not_not.mp hversion, hpeer, not_not.mp hactive, not_not.mp hsig⟩ hnot⟩

theorem settles_processHandshakeMsg (e : Around ι) (c : Client ι) (msg : Message ι) :
    Settles (Completes e c msg) c (processHandshakeMsg e c msg).1 := by
  unfold processHandshakeMsg
  cases hhs : c.hs with
  | none =>
    refine .dropped ?_
    cases msg with
    | hello msg => exact id
    | response msg =>
      rintro ⟨h, _, hh, _⟩
      exact nomatch hhs.symm.trans hh
    | confirm msg =>
      rintro ⟨h, _, hh, _⟩
      exact nomatch hhs.symm.trans hh
  | some h =>
    cases msg with
    | hello msg =>
      refine ⟨False.elim, fun _ => ?_⟩
      exact state_processHello e c h msg
    | response msg => exact settles_processResponse msg hhs
    | confirm msg => exact settles_processConfirm msg hhs

end Completion

section Runs

def Event.Dials (i : ι) : Event ι → Prop
  | .connect j _ _ => j = i
  | _ => False

def Event.clock : Event ι → Option ℕ
  | .connect _ _ e | .handshake _ _ e | .encrypt _ _ _ _ _ e | .decrypt _ _ e | .kick _ e => some e.now
  | .send _ _ _ _ _ | .inject _ | .deliver _ _ _ => none

def Client.Late (c : Client ι) (now : ℕ) : Prop := c.hsDeadlineUs ≠ 0 ∧ c.hsDeadlineUs < now

abbrev WorldStep (ι : Type) := System.Step (World ι) (Event ι)

/-- From a state in which it is FAILED no session becomes ESTABLISHED, unless it dials again. -/
def FailedIsFinal (steps : List (WorldStep ι)) : Prop :=
  ∀ i before later after, steps = before ++ later ++ after →
    (∀ x ∈ later, ¬ x.event.Dials i) → (∀ x ∈ later.head?, (x.before.client i).state = .failed) →
    ∀ x ∈ later, (x.after.client i).state ≠ .established

/-- A session that becomes ESTABLISHED does so before its deadline. -/
def MeetsDeadlines (steps : List (WorldStep ι)) : Prop :=
  ∀ x ∈ steps, ∀ i, (x.before.client i).state ≠ .established →
    (x.after.client i).state = .established →
    ∃ now ∈ x.event.clock, ¬ (x.before.client i).Late now

/-- No message completes the handshake of a session that is FAILED or whose deadline has passed. -/
def Punctual (x : WorldStep ι) : Prop :=
  ∀ i msg e, x.event = .handshake i msg e → Completes e (x.before.client i) msg →
    (x.before.client i).state ≠ .failed ∧ ¬ (x.before.client i).Late e.now

theorem state_workerConnect (e : Around ι) (c : Client ι) (peerId : PeerId)
    (hnew : c.state ≠ .established) : (workerConnect e c peerId).1.state ≠ .established := by
  unfold workerConnect
  rw [if_neg hnew]
  dsimp only
  split
  · split
    · exact fun heq => nomatch heq
    · exact hnew
  · split
    · exact fun heq => nomatch heq
    · split <;> exact fun heq => nomatch heq

variable [DecidableEq ι]

def Client.Concluded (c : Client ι) : Prop := c.state = .established → c.hs = none

theorem kept_concluded : Kept (Client.Concluded (ι := ι)) := by
  refine .of_continues ?_ ?_ ?_
  · intro e c peerId hc hestablished
    by_cases hstate : c.state = .established
    · rw [workerConnect, if_pos hstate]
      exact hc hstate
    · exact absurd hestablished (state_workerConnect e c peerId hstate)
  · intro e c msg hc hestablished
    have hsettles := settles_processHandshakeMsg e c msg
    by_cases hcompletes : Completes e c msg
    · exact (hsettles.established hcompletes).2
    · cases hsettles.otherwise hcompletes with
      | inl hsame =>
        have hnone := hc (hsame.symm.trans hestablished)
        rw [processHandshakeMsg, hnone]
        exact hnone
      | inr hfailed => exact absurd (hfailed.symm.trans hestablished) (by simp)
  · intro c c' hcont hc hestablished
    rw [hcont.hs]
    cases hcont.state with
    | inl hsame => exact hc (hsame.symm.trans hestablished)
    | inr hfailed => exact absurd (hfailed.symm.trans hestablished) (by simp)

theorem reachable_concluded {ident : ι → Identity} (h : (sudpSystem ident).Reachable s) (i : ι) :
    (s.client i).Concluded := by
  refine kept_concluded.reachable ?_ h i
  intro i reg firstContact token now c hc heq
  obtain ⟨_, _, rfl⟩ := Option.map_eq_some_iff.mp hc
  exact nomatch heq

theorem settles_next (s : World ι) (event : Event ι) (i : ι) (hdial : ¬ event.Dials i) :
    Settles (∃ msg e, event = .handshake i msg e ∧ Completes e (s.client i) msg) (s.client i)
      ((s.next event).client i) := by
  by_cases hmessage : ∃ msg e, event = .handshake i msg e
  · obtain ⟨msg, e, rfl⟩ := hmessage
    have hclient : (s.next (.handshake i msg e)).client i = (processHandshakeMsg e (s.client i) msg).1 :=
      client_absorb_self ..
    have hsettles := settles_processHandshakeMsg e (s.client i) msg
    rw [hclient]
    refine ⟨?_, fun hnot => hsettles.otherwise fun hc => hnot ⟨msg, e, rfl, hc⟩⟩
    rintro ⟨msg', e', heq, hc⟩
    obtain ⟨_, rfl, rfl⟩ := Event.handshake.inj heq
    exact hsettles.established hc
  · refine ⟨fun hc => ?_, fun _ => ?_⟩
    · obtain ⟨msg, e, heq, _⟩ := hc
      exact absurd ⟨msg, e, heq⟩ hmessage
    · rcases client_next s event i with ⟨peerId, e, rfl, _⟩ | ⟨msg, e, heq, _⟩ | hcont
      · exact absurd rfl hdial
      · exact absurd ⟨msg, e, heq⟩ hmessage
      · exact hcont.state

theorem not_established_of_dials {s : World ι} {event : Event ι} (hdials : event.Dials i)
    (hnew : (s.client i).state ≠ .established) : ((s.next event).client i).state ≠ .established := by
  cases event with
  | connect j peerId e =>
    obtain rfl : j = i := hdials
    have hclient : (s.next (.connect j peerId e)).client j = (workerConnect e (s.client j) peerId).1 :=
      client_absorb_self ..
    rw [hclient]
    exact state_workerConnect e _ peerId hnew
  | _ => exact hdials.elim

theorem failed_is_final_of_punctual {start s : World ι} {ident : ι → Identity}
    {steps : List (WorldStep ι)} (hrun : (sudpSystem ident).Walk start steps s)
    (hpunctual : ∀ x ∈ steps, Punctual x) : FailedIsFinal steps := by
  intro i before later after hsplit hdials hfailed
  rw [hsplit, List.append_assoc] at hrun
  obtain ⟨t, _, hrest⟩ := hrun.append
  obtain ⟨u, hlater, _⟩ := hrest.append
  have hkeep : ∀ x ∈ later, (x.before.client i).state = .failed →
      (x.after.client i).state = .failed := by
    intro x hx hstate
    obtain ⟨_, hafter⟩ := hlater.step hx
    have hsettles := settles_next x.before x.event i (hdials x hx)
    rw [← hafter] at hsettles
    have hnot : ¬ ∃ msg e, x.event = .handshake i msg e ∧ Completes e (x.before.client i) msg := by
      rintro ⟨msg, e, heq, hc⟩
      exact (hpunctual x (hsplit ▸ List.mem_append_left _ (List.mem_append_right _ hx)) i msg e heq
        hc).1 hstate
    cases hsettles.otherwise hnot with
    | inl hsame => exact hsame.trans hstate
    | inr hfailed => exact hfailed
  intro x hx
  cases hlater with
  | nil => exact nomatch hx
  | cons hstep hrest =>
    have hfirst := hfailed _ rfl
    have hall := System.Walk.keeps (I := fun w => (w.client i).state = .failed) hkeep
      (.cons hstep hrest) hfirst
    rw [hall x hx]
    exact fun heq => nomatch heq

/-- Exactly the sessions that no message completes too late are FAILED for good, and keep to their
deadlines. -/
theorem failed_is_final_iff {ident : ι → Identity} {start s : World ι} {steps : List (WorldStep ι)}
    (hstart : Starts ident start) (hrun : (sudpSystem ident).Walk start steps s) :
    FailedIsFinal steps ∧ MeetsDeadlines steps ↔ ∀ x ∈ steps, Punctual x := by
  constructor
  · rintro ⟨hfinal, hdeadlines⟩ x hx i msg e heq hc
    have hdials : ¬ x.event.Dials i := by
      rw [heq]
      exact id
    have hsettles := settles_next x.before x.event i hdials
    rw [← (hrun.step hx).2] at hsettles
    have hestablished := (hsettles.established ⟨msg, e, heq, hc⟩).1
    constructor
    · intro hfailed
      obtain ⟨before, after, hsplit⟩ := List.append_of_mem hx
      refine hfinal i before [x] after (by rw [hsplit, List.append_assoc]; rfl) ?_ ?_ x
        (List.mem_singleton_self x) hestablished
      · exact fun y hy => List.mem_singleton.mp hy ▸ hdials
      · intro y hy
        cases hy
        exact hfailed
    · have hnew : (x.before.client i).state ≠ .established := fun hold =>
        hc.pending (reachable_concluded (hrun.mem (.init hstart) hx) i hold)
      obtain ⟨now, hnow, hin⟩ := hdeadlines x hx i hnew hestablished
      rw [heq] at hnow
      cases hnow
      exact hin
  · intro hpunctual
    refine ⟨failed_is_final_of_punctual hrun hpunctual, ?_⟩
    intro x hx i hnew hestablished
    have hdials : ¬ x.event.Dials i := by
      intro hdials
      rw [(hrun.step hx).2] at hestablished
      exact not_established_of_dials hdials hnew hestablished
    have hsettles := settles_next x.before x.event i hdials
    rw [← (hrun.step hx).2] at hsettles
    by_cases hc : ∃ msg e, x.event = .handshake i msg e ∧ Completes e (x.before.client i) msg
    · obtain ⟨msg, e, heq, hc⟩ := hc
      exact ⟨e.now, by rw [heq]; rfl, (hpunctual x hx i msg e heq hc).2⟩
    · cases hsettles.otherwise hc with
      | inl hsame => exact absurd (hsame.symm.trans hestablished) hnew
      | inr hfailed => exact nomatch hfailed.symm.trans hestablished

end Runs

section Overtaken

open YumiBrowser.Group (member)

def dialedHello : Hello Bool where
  version := protocolVersion
  peerId := (member 1).peerId
  epochId := 1
  firstContact := 0
  mlkemPk := .honest true 0
  bp512Pk := .honest true 1
  frodoPk := none
  rest := []

def dialedTranscript : Transcript Bool where
  hello := dialedHello
  peerId := (member 2).peerId
  mlkemCt := ⟨.honest true 0, .honest false 0⟩
  bp512Pk := .honest false 1
  frodoCt := none

def dialedResponse : Response Bool where
  version := protocolVersion
  peerId := (member 2).peerId
  mlkemCt := dialedTranscript.mlkemCt
  bp512Pk := dialedTranscript.bp512Pk
  frodoCt := none
  signature := ⟨(member 2).publicKey, dialedTranscript.digest⟩

def dialedHandshake : Handshake Bool where
  state := .helloSent
  firstContact := false
  peerId := (member 2).peerId
  mlkem := some (.honest true 0)
  bp512 := some (.honest true 1)
  frodo := none
  transcript := some [.hello dialedHello]
  transcriptHash := .other 0

def overtakenRun : List (Event Bool) :=
  [.connect true (member 2).peerId (pairAround 1),
    .handshake false (.hello dialedHello) (pairAround 2),
    .encrypt true flagProbe 0 0 [] (pairAround 20000000),
    .handshake true (.response dialedResponse) (pairAround 20000001)]

theorem overtakenRun_walk : (sudpSystem pairIdentity).Walk pairStart
    (System.stepsOf World.next pairStart overtakenRun) (overtakenRun.foldl World.next pairStart) := by
  refine System.Walk.run (S := sudpSystem pairIdentity) (fun _ _ he => ⟨he, rfl⟩) overtakenRun
    ⟨trivial, (fun _ hnone => nomatch hnone), ⟨by decide, .inl (by decide)⟩, ?_, trivial⟩
  intro signature hsig
  cases hsig
  exact .inl (List.mem_cons_self ..)

theorem failed_is_final_iff_overtaken :
    FailedIsFinal (System.stepsOf World.next pairStart overtakenRun) ∧
        MeetsDeadlines (System.stepsOf World.next pairStart overtakenRun) ↔
      ∀ x ∈ System.stepsOf World.next pairStart overtakenRun, Punctual x :=
  failed_is_final_iff pairStart_starts overtakenRun_walk

-- The RESPONSE is one that the session takes as if it had not given up.
theorem failed_session_established :
    ¬ ∀ (ident : Bool → Identity) (start s : World Bool) (steps : List (WorldStep Bool)),
      Starts ident start → (sudpSystem ident).Walk start steps s →
        FailedIsFinal steps ∧ MeetsDeadlines steps := by
  intro hall
  obtain ⟨hfinal, _⟩ := hall _ _ _ _ pairStart_starts overtakenRun_walk
  let event : Event Bool := .handshake true (.response dialedResponse) (pairAround 20000001)
  have hlast : ∃ s : World Bool, System.stepsOf World.next pairStart overtakenRun =
      System.stepsOf World.next pairStart (overtakenRun.take 3) ++ [⟨s, event, s.next event⟩] ++ [] ∧
        (s.client true).hs = some dialedHandshake ∧ (s.client true).state = .failed :=
    ⟨_, rfl, rfl, rfl⟩
  obtain ⟨s, hsplit, hcontext, hfailed⟩ := hlast
  have hconcludes : Concludes (pairAround 20000001) dialedHandshake dialedResponse (member 2).publicKey :=
    ⟨by decide, rfl, by decide, rfl, rfl⟩
  have hcompletes : Completes (pairAround 20000001) (s.client true) (.response dialedResponse) :=
    ⟨dialedHandshake, _, hcontext, rfl, by decide, rfl, rfl, rfl, rfl, by decide, by decide, hconcludes⟩
  have hestablished := ((settles_next s event true id).established ⟨_, _, rfl, hcompletes⟩).1
  refine hfinal true _ _ [] hsplit ?_ ?_ _ (List.mem_singleton_self _) hestablished
  · intro x hx
    rw [List.mem_singleton.mp hx]
    exact id
  · intro x hx
    cases hx
    exact hfailed

end Overtaken

end YumiBrowser.Sudp

import YumiBrowser.Network.SessionAuthenticity

namespace YumiBrowser.Sudp

open Wire Ideal Transition
open YumiBrowser.Group (Registrar Identity PeerId PublicKey EpochKey epochGetCurrent)

variable {ι : Type}

def Seed.epochKeys : Seed ι → List EpochKey
  | zero => []
  | init root => [root.epochKey]
  | rekey seed epochKey => epochKey :: seed.epochKeys

section Agreement

variable (ident : ι → Identity)

/-- An ESTABLISHED session, by a signature of `j`. -/
def World.EstablishedWith (s : World ι) (i j : ι) : Prop :=
  (s.client i).state = .established ∧
    ∃ signature ∈ s.established i, signature.key = (ident j).publicKey

/-- What the two ends of a session have in common. -/
structure EndsAgree (c c' : Client ι) : Prop where
  roles : c'.isInitiator = !c.isInitiator
  seed : c.rekeySeed.epochKeys = c'.rekeySeed.epochKeys → c.rekeySeed = c'.rekeySeed
  sends : c.rekeySeed = c'.rekeySeed → c.sendRekeyGen = c'.recvRekeyGen → c.sendSubkeys = c'.recvSubkeys
  receives : c.rekeySeed = c'.rekeySeed → c'.sendRekeyGen = c.recvRekeyGen → c'.sendSubkeys = c.recvSubkeys

structure Client.Spent (c : Client ι) : Prop where
  role : c.transportKeyReady = true → c.isInitiator = false
  chunks : ∀ h, c.hs = some h → ∀ chunks, h.transcript = some chunks → chunks = []
  idle : ∀ h, c.hs = some h → h.state = .idle → h.transcript = none

structure Client.Finished (c : Client ι) (established : Option (Sig ι)) (t : Transcript ι) : Prop where
  ready : c.transportKeyReady = true
  done : ∀ h, c.hs = some h → h.state = .done
  digest : ∀ signature, established = some signature → signature.digest = t.digest

structure Attests (j : ι) (c : Client ι) (established : Option (Sig ι)) (signature : Sig ι) : Prop where
  key : signature.key = (ident j).publicKey
  about : ∃ t : Transcript ι, signature.digest = t.digest ∧
    (t.TookPart ident j true ∧ c.Finished established t ∨ t.TookPart ident j false ∧ c.Spent)

end Agreement

section Seeds

theorem Seed.epochKeys_ne_nil {seed : Seed ι} {root : Root ι} (h : seed.root? = some root) :
    seed.epochKeys ≠ [] := by
  cases seed with
  | zero => exact nomatch h
  | init _ => exact List.cons_ne_nil _ _
  | rekey _ _ => exact List.cons_ne_nil _ _

theorem Seed.eq_of_epochKeys [DecidableEq ι] {t : Transcript ι} {seed seed' : Seed ι} {k k' : EpochKey}
    (hroot : seed.root? = some (t.root k)) (hroot' : seed'.root? = some (t.root k'))
    (hkeys : seed.epochKeys = seed'.epochKeys) : seed = seed' := by
  induction seed generalizing seed' with
  | zero => exact nomatch hroot
  | init r =>
    cases seed' with
    | zero => exact nomatch hroot'
    | init r' =>
      cases hroot
      cases hroot'
      have hkey : k = k' := List.singleton_inj.mp hkeys
      rw [hkey]
    | rekey seed' _ => exact absurd (List.cons.inj hkeys).2.symm (epochKeys_ne_nil hroot')
  | rekey seed _ ih =>
    cases seed' with
    | zero => exact nomatch hroot'
    | init _ => exact absurd (List.cons.inj hkeys).2 (epochKeys_ne_nil hroot)
    | rekey seed' _ =>
      obtain ⟨rfl, hrest⟩ := List.cons.inj hkeys
      rw [@ih seed' hroot hroot' hrest]

end Seeds

section Kept

variable {ident : ι → Identity} {i : ι} {c c' : Client ι} {established : Option (Sig ι)}
  {t : Transcript ι}

theorem Client.Spent.continues (h : c.Spent) (hcont : Continues c c') : c'.Spent := by
  refine ⟨fun hready => ?_, ?_, ?_⟩
  · rw [hcont.role]
    exact h.role (hcont.ready.symm.trans hready)
  · rw [hcont.hs]
    exact h.chunks
  · rw [hcont.hs]
    exact h.idle

theorem Client.Finished.continues (h : c.Finished established t) (hcont : Continues c c') :
    c'.Finished established t := by
  refine ⟨hcont.ready.trans h.ready, ?_, h.digest⟩
  rw [hcont.hs]
  exact h.done

theorem Client.Spent.renew {h : Handshake ι} {state : SessionState} (hc : c.Spent)
    (hchunks : ∀ chunks, h.transcript = some chunks → chunks = [])
    (hidle : h.state = .idle → h.transcript = none) :
    ({ c with state, hs := some h } : Client ι).Spent := by
  refine ⟨hc.role, ?_, ?_⟩
  · intro h' hh'
    cases hh'
    exact hchunks
  · intro h' hh'
    cases hh'
    exact hidle

theorem Client.Spent.of_unready {h : Handshake ι} (hready : c.transportKeyReady = false)
    (hhs : c.hs = some h) (htranscript : h.transcript = none) : c.Spent := by
  refine ⟨fun h => absurd (hready.symm.trans h) Bool.false_ne_true, ?_, ?_⟩
  · intro h' hh' chunks hchunks
    cases hhs.symm.trans hh'
    cases htranscript.symm.trans hchunks
  · intro h' hh' _
    cases hhs.symm.trans hh'
    exact htranscript

theorem Client.Finished.connect (hf : c.Finished established t) (horder : DialedOnce c)
    (e : Around ι) (peerId : PeerId) : (workerConnect e c peerId).1.Finished established t := by
  unfold workerConnect
  split
  · exact hf
  · next hstate =>
    obtain ⟨h, hhs⟩ := Option.ne_none_iff_exists'.mp fun hnone => hstate (horder hnone)
    have hdone := hf.done h hhs
    have hsame (state : SessionState) :
        ({ c with state, hs := some h } : Client ι).Finished established t := by
      refine ⟨hf.ready, fun h' hh' => ?_, hf.digest⟩
      cases hh'
      exact hdone
    rw [hhs, Option.getD_some]
    dsimp only
    split
    · split
      · exact hsame .handshaking
      · exact hsame c.state
    · next hidle => exact nomatch hdone.symm.trans (not_not.mp hidle)

variable [DecidableEq ι]

theorem Client.Spent.connect (hs : c.Spent) (hc : c.Inv ident i established) (horder : DialedOnce c)
    (e : Around ι) (peerId : PeerId) : (workerConnect e c peerId).1.Spent := by
  unfold workerConnect
  split
  · exact hs
  · next hstate =>
    obtain ⟨h, hhs⟩ := Option.ne_none_iff_exists'.mp fun hnone => hstate (horder hnone)
    have hsame (state : SessionState) : ({ c with state, hs := some h } : Client ι).Spent :=
      hs.renew (hs.chunks h hhs) (hs.idle h hhs)
    rw [hhs, Option.getD_some]
    dsimp only
    split
    · split
      · exact hsame .handshaking
      · exact hsame c.state
    · next hidle =>
      have hnone := hs.idle h hhs (not_not.mp hidle)
      have hready : c.transportKeyReady = false := by
        cases hc.phase with
        | inl hunkeyed => exact hunkeyed.1.ready
        | inr hkeyed =>
          obtain ⟨_, _, hk, _⟩ := hkeyed
          exact absurd (not_not.mp hidle) (hk.closed h hhs).1
      have hfed (chunks : List (Chunk ι)) : feed h.transcript chunks = none := by
        rw [hnone]
        rfl
      split
      · exact .of_unready hready rfl hnone
      · split
        · exact .of_unready hready rfl (hfed _)
        · exact .of_unready hready rfl (hfed _)

omit [DecidableEq ι] in
theorem Client.Spent.responder {h : Handshake ι} (hrole : c.isInitiator = false) (hhs : c.hs = some h)
    (hchunks : ∀ chunks, h.transcript = some chunks → chunks = [])
    (hidle : h.state = .idle → h.transcript = none) : c.Spent := by
  refine ⟨fun _ => hrole, ?_, ?_⟩
  · intro h' hh'
    cases hhs.symm.trans hh'
    exact hchunks
  · intro h' hh'
    cases hhs.symm.trans hh'
    exact hidle

omit [DecidableEq ι] in
theorem Client.Spent.hello {h : Handshake ι} {e : Around ι} {msg : Hello ι} (hs : c.Spent)
    (hhs : c.hs = some h) : (processHello e c h msg).1.Spent := by
  have hyield : (∀ chunks, h.yield.transcript = some chunks → chunks = []) ∧
      (h.yield.state = .idle → h.yield.transcript = none) := by
    by_cases hsent : h.state = .helloSent
    · rw [Handshake.yield, if_pos hsent]
      refine ⟨fun chunks hchunks => ?_, fun hidle => absurd (hsent.symm.trans hidle) (by simp)⟩
      cases hchunks
      rfl
    · rw [Handshake.yield, if_neg hsent]
      exact ⟨hs.chunks h hhs, hs.idle h hhs⟩
  rcases processHello_cases e c h msg with ⟨_, heq | heq⟩ | ⟨_, heq⟩
  · rw [heq]
    exact hs
  · rw [heq]
    exact hs.renew hyield.1 hyield.2
  · rw [heq]
    cases respond_cases e (becomeResponder e c msg)
        { h.yield with peerId := msg.peerId, firstContact := msg.firstContact ≠ 0 } msg with
    | inl hstop =>
      obtain ⟨h', outs, heq, hstate, htranscript, _⟩ := hstop
      rw [heq]
      refine .responder rfl rfl (fun chunks hchunks => ?_) fun hidle => ?_
      · cases htranscript with
        | inl hsame => exact hyield.1 chunks (hsame.symm.trans hchunks)
        | inr hnone => exact absurd (hnone.symm.trans hchunks) (by simp)
      · cases htranscript with
        | inl hsame => exact hsame.trans (hyield.2 (hstate.symm.trans hidle))
        | inr hnone => exact hnone
    | inr hkeys =>
      obtain ⟨c', h', response, hkeys, _, hfreed, _, _, _, heq⟩ := hkeys
      obtain ⟨_, hrole, _⟩ := keyed_deriveKeys hkeys
      have hchunks : ∀ chunks, h'.transcript = some chunks → chunks = [] :=
        fun chunks hchunks => absurd (hfreed.symm.trans hchunks) (by simp)
      cases heq with
      | inl heq =>
        rw [heq]
        exact .responder hrole rfl hchunks fun _ => hfreed
      | inr heq =>
        rw [heq]
        exact .responder hrole rfl hchunks fun _ => hfreed

theorem Client.Spent.response {h : Handshake ι} {e : Around ι} {msg : Response ι} (hs : c.Spent)
    (hhs : c.hs = some h) (horder : ResponseInOrder e c msg) : (processResponse e c h msg).1.Spent := by
  rcases processResponse_cases e c h msg with heq | heq | ⟨hsent, peer, mlkem, bp512, _, _, _, _, _, heq⟩
  · rw [heq]
    exact hs
  · rw [heq]
    exact hs.renew (hs.chunks h hhs) (hs.idle h hhs)
  · rw [heq]
    cases concludeResponse_cases e c h msg peer.signKey mlkem bp512 with
    | inl hstop =>
      obtain ⟨h', outs, heq, hstate, htranscript, _⟩ := hstop
      rw [heq]
      refine hs.renew (fun chunks hchunks => ?_) fun hidle => nomatch hsent.symm.trans (hstate.symm.trans hidle)
      cases htranscript with
      | inl hnone => exact nomatch hnone.symm.trans hchunks
      | inr hsame => exact hs.chunks h hhs chunks (hsame.1.symm.trans hchunks)
    | inr hverified =>
      obtain ⟨_, hsig, _, _⟩ := hverified
      obtain ⟨own, hown⟩ := horder h hhs hsent (congrArg Signature.digest hsig)
      exact nomatch hs.chunks h hhs _ hown

theorem Client.Spent.confirm {h : Handshake ι} {e : Around ι} {msg : Confirm ι} (hs : c.Spent)
    (hhs : c.hs = some h) : (processConfirm e c h msg).1.Spent := by
  rcases processConfirm_cases e c h msg with heq | heq | ⟨_, _, _, _, _, heq⟩
  · rw [heq]
    exact hs
  · rw [heq]
    exact hs.renew (hs.chunks h hhs) (hs.idle h hhs)
  · rw [heq]
    exact ⟨hs.role, (fun _ hnone => nomatch hnone), fun _ hnone => nomatch hnone⟩

theorem Client.Spent.message {e : Around ι} {msg : Message ι} (hs : c.Spent)
    (horder : MessageInOrder e c msg) : (processHandshakeMsg e c msg).1.Spent := by
  unfold processHandshakeMsg
  cases hhs : c.hs with
  | none => exact hs
  | some h =>
    cases msg with
    | hello msg => exact hs.hello hhs
    | response msg => exact hs.response hhs horder
    | confirm msg => exact hs.confirm hhs

theorem Client.Finished.message {e : Around ι} {msg : Message ι} (hf : c.Finished established t)
    (horder : MessageInOrder e c msg) : (processHandshakeMsg e c msg).1.Finished established t ∧
      ∀ out ∈ (processHandshakeMsg e c msg).2, out.Plain := by
  unfold processHandshakeMsg
  cases hhs : c.hs with
  | none => exact ⟨hf, fun _ hin => absurd hin List.not_mem_nil⟩
  | some h =>
    have hdone := hf.done h hhs
    have hfail : (c.fail h []).1.Finished established t ∧ ∀ out ∈ (c.fail h []).2, out.Plain := by
      refine ⟨⟨hf.ready, fun h' hh' => ?_, hf.digest⟩, by simp [Client.fail, Output.Plain]⟩
      cases hh'
      exact hdone
    cases msg with
    | hello msg =>
      change (processHello e c h msg).1.Finished established t ∧ ∀ out ∈ (processHello e c h msg).2, _
      rcases processHello_cases e c h msg with ⟨_, heq | heq⟩ | ⟨hheeded, _⟩
      · rw [heq]
        exact ⟨hf, fun _ hin => absurd hin List.not_mem_nil⟩
      · have hyield : h.yield = h := by
          rw [Handshake.yield, if_neg]
          exact fun hsent => absurd (hdone.symm.trans hsent) (by simp)
        rw [heq, hyield, ← hhs]
        exact ⟨hf, fun _ hin => absurd hin List.not_mem_nil⟩
      · exact absurd ((horder h hhs hheeded).1.symm.trans hf.ready) (by simp)
    | response msg =>
      change (processResponse e c h msg).1.Finished established t ∧ ∀ out ∈ (processResponse e c h msg).2, _
      rcases processResponse_cases e c h msg with heq | heq | ⟨hsent, _⟩
      · rw [heq]
        exact ⟨hf, fun _ hin => absurd hin List.not_mem_nil⟩
      · rw [heq]
        exact hfail
      · exact absurd (hdone.symm.trans hsent) (by simp)
    | confirm msg =>
      change (processConfirm e c h msg).1.Finished established t ∧ ∀ out ∈ (processConfirm e c h msg).2, _
      rcases processConfirm_cases e c h msg with heq | heq | ⟨hwaits, _⟩
      · rw [heq]
        exact ⟨hf, fun _ hin => absurd hin List.not_mem_nil⟩
      · rw [heq]
        exact hfail
      · exact absurd (hdone.symm.trans hwaits) (by simp)

end Kept

section Signatures

variable [DecidableEq ι] {ident : ι → Identity} {i : ι} {c : Client ι} {established established' : Option (Sig ι)}

omit [DecidableEq ι] in
theorem Attests.mono {c' : Client ι} (h : Attests ident i c established signature)
    (hspent : c.Spent → c'.Spent)
    (hfinished : ∀ t, c.Finished established t → c'.Finished established' t) :
    Attests ident i c' established' signature := by
  obtain ⟨t, hdigest, hover⟩ := h.about
  exact ⟨h.key, t, hdigest, hover.imp (And.imp_right (hfinished t)) (And.imp_right hspent)⟩

theorem attests_hello {h : Handshake ι} {e : Around ι} {msg : Hello ι}
    (hc : c.Inv ident i established) (hhs : c.hs = some h) (horder : HelloInOrder e c msg)
    (hin : .signed signature ∈ (processHello e c h msg).2) :
    Attests ident i (processHello e c h msg).1 established' signature := by
  rcases processHello_cases e c h msg with ⟨_, heq | heq⟩ | ⟨hheeded, heq⟩
  · rw [heq] at hin
    exact nomatch hin
  · rw [heq] at hin
    exact nomatch hin
  · obtain ⟨_, _, hempty, _⟩ := hc.heeds hhs horder hheeded
    rw [heq] at hin ⊢
    have hpart : (answered (becomeResponder e c msg) msg).TookPart ident i false := by
      refine ⟨congrArg Identity.peerId hc.identity, c.drawn, ?_⟩
      rw [← hc.self]
      rfl
    have hattests {c' : Client ι} {h' : Handshake ι} (hrole : c'.isInitiator = false)
        (hhs : c'.hs = some h') (hfreed : h'.transcript = none)
        (hsig : signature = ⟨c.identity.publicKey, finalHash (feed h.yield.transcript
          (answered (becomeResponder e c msg) msg).chunks) e.noise⟩) :
        Attests ident i c' established' signature := by
      rw [hempty] at hsig
      rw [hsig]
      refine ⟨congrArg Identity.publicKey hc.identity, _, rfl, .inr ⟨hpart, ?_⟩⟩
      exact .responder hrole hhs (fun chunks hchunks => nomatch hfreed.symm.trans hchunks) fun _ => hfreed
    cases respond_cases e (becomeResponder e c msg)
        { h.yield with peerId := msg.peerId, firstContact := msg.firstContact ≠ 0 } msg with
    | inl hstop =>
      obtain ⟨h', outs, heq, _, _, houts⟩ := hstop
      rw [heq] at hin ⊢
      rcases houts with rfl | ⟨hfreed, rfl⟩
      · simp [Client.fail] at hin
      · obtain rfl : signature = _ := by simpa [Client.fail] using hin
        exact hattests rfl rfl hfreed rfl
    | inr hkeys =>
      obtain ⟨c', h', response, hkeys, _, hfreed, _, _, _, heq⟩ := hkeys
      obtain ⟨_, hrole, _⟩ := keyed_deriveKeys hkeys
      cases heq with
      | inl heq =>
        rw [heq] at hin ⊢
        obtain rfl : signature = _ := by simpa [Client.fail] using hin
        exact hattests hrole rfl hfreed rfl
      | inr heq =>
        rw [heq] at hin ⊢
        obtain rfl : signature = _ := by simpa using hin
        exact hattests hrole rfl hfreed rfl

theorem attests_response {h : Handshake ι} {e : Around ι} {msg : Response ι}
    (hc : c.Inv ident i established) (hhs : c.hs = some h) (horder : ResponseInOrder e c msg)
    (ha : Advances ident i c established (processResponse e c h msg) established')
    (hin : .signed signature ∈ (processResponse e c h msg).2) :
    Attests ident i (processResponse e c h msg).1 established' signature := by
  have hkey := (ha.signed signature hin).1
  have houtputs := ha.outputs
  rcases processResponse_cases e c h msg with
    heq | heq | ⟨hsent, peer, mlkem, bp512, _, _, _, hmlkem, hbp512, heq⟩
  · rw [heq] at hin
    exact absurd hin List.not_mem_nil
  · rw [heq] at hin
    simp [Client.fail] at hin
  · rw [heq] at hin houtputs ⊢
    cases concludeResponse_cases e c h msg peer.signKey mlkem bp512 with
    | inl hstop =>
      obtain ⟨h', outs, heq, _, _, houts⟩ := hstop
      rw [heq] at hin
      rcases houts with rfl | rfl <;> simp [Client.fail] at hin
    | inr hverified =>
      obtain ⟨c', hsig, hkeys, hends⟩ := hverified
      obtain ⟨rfl, t, k, hcon⟩ := hc.concludes hhs hsent hmlkem hbp512 horder hsig hkeys
      cases hends with
      | inl hfails =>
        obtain ⟨h', outs, heq, _, hends⟩ := hfails
        rw [heq] at hin houtputs ⊢
        rcases hends with ⟨_, rfl⟩ | ⟨hdone, rfl⟩
        · simp [Client.fail] at hin
        · have hnone : established' = none := by
            cases houtputs with
            | inl hplain => exact hplain.1
            | inr hest =>
              obtain ⟨_, _, hest⟩ := hest
              cases hest
          obtain rfl : signature = _ := by simpa [Client.fail] using hin
          refine ⟨hkey, t, hcon.digest, .inl ⟨hcon.part, hcon.derived.ready, fun h₁ hh₁ => ?_, ?_⟩⟩
          · cases hh₁
            exact hdone
          · rw [hnone]
            exact fun _ heq => absurd heq (by simp)
      | inr heq =>
        rw [heq] at hin houtputs ⊢
        obtain rfl : signature = _ := by simpa using hin
        refine ⟨hkey, t, hcon.digest, .inl ⟨hcon.part, hcon.derived.ready,
          (fun _ hnone => absurd hnone (by simp)), fun signature hsome => ?_⟩⟩
        cases houtputs with
        | inl hplain => exact absurd rfl (hplain.2 (.state .established) (by simp))
        | inr hest =>
          obtain ⟨signature', hsome', hest⟩ := hest
          cases hsome.symm.trans hsome'
          cases hest
          exact hcon.digest

theorem attests_message {e : Around ι} {msg : Message ι} (hc : c.Inv ident i established)
    (horder : MessageInOrder e c msg)
    (ha : Advances ident i c established (processHandshakeMsg e c msg) established')
    (hin : .signed signature ∈ (processHandshakeMsg e c msg).2) :
    Attests ident i (processHandshakeMsg e c msg).1 established' signature := by
  unfold processHandshakeMsg at ha hin ⊢
  cases hhs : c.hs with
  | none =>
    rw [hhs] at hin
    exact nomatch hin
  | some h =>
    rw [hhs] at ha hin
    cases msg with
    | hello msg => exact attests_hello hc hhs horder hin
    | response msg => exact attests_response hc hhs horder ha hin
    | confirm msg =>
      have hin : .signed signature ∈ (processConfirm e c h msg).2 := hin
      rcases processConfirm_cases e c h msg with heq | heq | ⟨_, _, _, _, _, heq⟩
      · rw [heq] at hin
        exact nomatch hin
      · rw [heq] at hin
        simp [Client.fail] at hin
      · rw [heq] at hin
        simp at hin

end Signatures

section Quiet

def Output.Quiet : Output ι → Prop
  | .state new => new ≠ .established
  | .signed _ => False
  | _ => True

theorem quiet_workerConnect (e : Around ι) (c : Client ι) (peerId : PeerId) :
    ∀ out ∈ (workerConnect e c peerId).2, out.Quiet := by
  unfold workerConnect
  split
  · exact fun _ hin => nomatch hin
  · dsimp only
    split
    · split <;> simp [setState, Output.Quiet]
    · split
      · simp [Client.fail, Output.Quiet]
      · split <;> simp [Client.fail, Output.Quiet]

theorem quiet_encryptSend (maxPayload : ℕ) (c : Client ι) (channel : BitVec 8) (data : List Byte)
    (reliable : Bool) : ∀ out ∈ (encryptSend maxPayload c channel data reliable).2, out.Quiet := by
  unfold encryptSend
  split
  · exact fun _ hin => nomatch hin
  · split
    · simp [setState, Output.Quiet]
    · split <;> simp [Output.Quiet]

theorem quiet_innerRecvData (c : Client ι) (pkt : List Byte) (reliable : Bool) :
    ∀ out ∈ (innerRecvData c pkt reliable).2, out.Quiet := by
  unfold innerRecvData
  split
  · exact fun _ hin => nomatch hin
  · split
    · simp [setState, Output.Quiet]
    · split <;> simp [Output.Quiet]

theorem quiet_notifyKick (reg : Registrar) (c : Client ι) :
    ∀ out ∈ (notifyKick reg c).2, out.Quiet := by
  unfold notifyKick
  split
  · exact fun _ hin => absurd hin List.not_mem_nil
  · split
    · exact fun _ hin => absurd hin List.not_mem_nil
    · split <;> simp [setState, Output.Quiet]

variable [DecidableEq ι]

theorem log_quiet (i : ι) (s : World ι) {out : Output ι} (h : out.Quiet) :
    (s.log i out).established = s.established ∧ (s.log i out).signed = s.signed := by
  cases out with
  | state new =>
    cases new with
    | established => exact absurd rfl h
    | _ => exact ⟨rfl, rfl⟩
  | signed signature => exact h.elim
  | _ => exact ⟨rfl, rfl⟩

theorem absorb_quiet (s : World ι) (i : ι) {o : Outcome ι} (h : ∀ out ∈ o.2, out.Quiet) :
    (s.absorb i o).established = s.established ∧ (s.absorb i o).signed = s.signed := by
  have hlogs : ∀ (outs : List (Output ι)) (t : World ι), (∀ out ∈ outs, out.Quiet) →
      (outs.foldl (World.log i) t).established = t.established ∧
        (outs.foldl (World.log i) t).signed = t.signed := by
    intro outs
    induction outs with
    | nil => exact fun t _ => ⟨rfl, rfl⟩
    | cons out outs ih =>
      intro t hquiet
      obtain ⟨hest, hsigned⟩ := log_quiet i t (hquiet out (List.mem_cons_self ..))
      obtain ⟨hest', hsigned'⟩ := ih (t.log i out) fun o ho => hquiet o (List.mem_cons_of_mem _ ho)
      exact ⟨hest'.trans hest, hsigned'.trans hsigned⟩
  exact hlogs o.2 { s with client := Function.update s.client i o.1 } h

theorem quiet_next (s : World ι) {event : Event ι} (h : ∀ i msg e, event ≠ .handshake i msg e) :
    (s.next event).established = s.established ∧ (s.next event).signed = s.signed := by
  have hfailed {outs : List (Output ι)} (houts : ∀ out ∈ outs, out = .state .failed) :
      ∀ out ∈ outs, out.Quiet := fun out hin => houts out hin ▸ fun heq => nomatch heq
  cases event with
  | connect i peerId e => exact absorb_quiet s i (quiet_workerConnect e _ peerId)
  | handshake i msg e => exact absurd rfl (h i msg e)
  | send i maxPayload channel data reliable =>
    exact absorb_quiet s i (quiet_encryptSend maxPayload _ channel data reliable)
  | encrypt i flags channel seq payload e =>
    exact absorb_quiet s i (hfailed (outputs_pktEncrypt e _ (buildPacket flags channel seq payload)))
  | inject d => exact ⟨rfl, rfl⟩
  | decrypt i d e =>
    have habsorb := absorb_quiet s i (hfailed (outputs_pktDecrypt e (s.client i) d))
    unfold World.next
    dsimp only
    split <;> exact habsorb
  | deliver i d reliable => exact absorb_quiet s i (quiet_innerRecvData _ _ reliable)
  | kick i e => exact absorb_quiet s i (quiet_notifyKick e.reg _)

end Quiet

section Runs

variable [DecidableEq ι] {ident : ι → Identity} {s : World ι}

def World.Attested (ident : ι → Identity) (s : World ι) : Prop :=
  ∀ signature ∈ s.signed, ∃ j, Attests ident j (s.client j) (s.established j) signature

theorem World.Attested.next (h : s.Attested ident) (hinv : s.Inv ident) {event : Event ι}
    (hen : Enabled ident s event) (horder : Orderly s event) : (s.next event).Attested ident := by
  by_cases hmessage : ∃ i msg e, event = .handshake i msg e
  · obtain ⟨i, msg, e, rfl⟩ := hmessage
    obtain ⟨established, ha, _⟩ := (hinv.client i).message horder
    have hest := ha.absorbed.1
    intro signature hin
    change signature ∈ (s.absorb i (processHandshakeMsg e (s.client i) msg)).signed at hin
    change ∃ j, Attests ident j ((s.absorb i (processHandshakeMsg e (s.client i) msg)).client j)
      ((s.absorb i (processHandshakeMsg e (s.client i) msg)).established j) signature
    rw [client_absorb, hest]
    cases (signed_absorb s i _).mp hin with
    | inl hnew =>
      refine ⟨i, ?_⟩
      rw [Function.update_self, Function.update_self]
      exact attests_message (hinv.client i) horder ha hnew
    | inr hold =>
      obtain ⟨j, hj⟩ := h signature hold
      refine ⟨j, ?_⟩
      by_cases hji : j = i
      · subst hji
        rw [Function.update_self, Function.update_self]
        refine hj.mono (fun hspent => hspent.message horder) fun t hfinished => ?_
        obtain ⟨hfinished', hplain⟩ := hfinished.message horder
        have hsame := (absorb_plain s j hplain).1.symm.trans hest
        have hsame := congrFun hsame j
        rw [Function.update_self] at hsame
        exact hsame ▸ hfinished'
      · rw [Function.update_of_ne hji, Function.update_of_ne hji]
        exact hj
  · have hquiet := quiet_next s fun i msg e heq => hmessage ⟨i, msg, e, heq⟩
    intro signature hin
    rw [hquiet.2] at hin
    obtain ⟨j, hj⟩ := h signature hin
    refine ⟨j, ?_⟩
    rw [hquiet.1]
    rcases client_next s event j with ⟨peerId, e, rfl, heq⟩ | ⟨msg, e, rfl, _⟩ | hcont
    · rw [heq]
      exact hj.mono (fun hspent => hspent.connect (hinv.client j) horder e peerId)
        fun t hfinished => hfinished.connect horder e peerId
    · exact absurd ⟨j, msg, e, rfl⟩ hmessage
    · exact hj.mono (fun hspent => hspent.continues hcont) fun t hfinished => hfinished.continues hcont

theorem reachable_attested (h : ((sudpSystem ident).restrict Orderly).Reachable s) : s.Attested ident := by
  refine System.Reachable.invariant_under (J := World.Inv ident) (I := World.Attested ident)
    (fun s => reachable_inv) ?_ ?_ h
  · intro s hs signature hin
    obtain ⟨_, _, hsigned, _⟩ := hs
    rw [hsigned] at hin
    exact nomatch hin
  · rintro s event t hinv hattested ⟨horder, hen, rfl⟩
    exact hattested.next hinv hen horder

theorem World.Inv.attested (h : s.Inv ident) (hattested : s.Attested ident) {i j : ι}
    (honly : ∀ k, (ident k).publicKey = (ident j).publicKey → k = j)
    (hest : s.EstablishedWith ident i j) :
    ∃ t k, (s.client i).Keyed ident i t k ∧
      (∃ signature ∈ s.established i, signature.digest = t.digest) ∧
      (t.TookPart ident j true ∧ (s.client j).Finished (s.established j) t ∨
        t.TookPart ident j false ∧ (s.client j).Spent) := by
  obtain ⟨_, signature, hsig, hkey⟩ := hest
  have hsigned := (h.peer i signature hsig).resolve_right (not_not.mpr ⟨j, hkey.symm⟩)
  obtain ⟨j', hj'⟩ := hattested signature hsigned
  obtain rfl := honly j' (hj'.key.symm.trans hkey)
  cases (h.client i).phase with
  | inl hunkeyed => exact nomatch hsig.symm.trans hunkeyed.2
  | inr hkeyed =>
    obtain ⟨t, k, hk, hdigest, _⟩ := hkeyed
    obtain ⟨t', ht', hover⟩ := hj'.about
    obtain rfl := Transcript.digest_inj.mp ((hdigest signature hsig).symm.trans ht')
    exact ⟨t, k, hk, ⟨signature, hsig, ht'⟩, hover⟩

/-- In a run whose handshakes keep to their steps, two endpoints whose sessions are ESTABLISHED with
each other are the initiator and the responder of one handshake. Their seeds are equal as soon as the
same epochs are in them, and the keys of a direction as soon as its generations are. -/
theorem key_agreement {i j : ι} (hij : i ≠ j)
    (hi : ∀ k, (ident k).publicKey = (ident i).publicKey → k = i)
    (hj : ∀ k, (ident k).publicKey = (ident j).publicKey → k = j)
    (h : ((sudpSystem ident).restrict Orderly).Reachable s)
    (hestij : s.EstablishedWith ident i j) (hestji : s.EstablishedWith ident j i) :
    EndsAgree (s.client i) (s.client j) := by
  have hinv := reachable_inv h
  have hattested := reachable_attested h
  obtain ⟨t, k, hk, ⟨signature, hsig, hdigest⟩, hover⟩ := hinv.attested hattested hj hestij
  obtain ⟨t', k', hk', ⟨signature', hsig', hdigest'⟩, hover'⟩ := hinv.attested hattested hi hestji
  have hsame : t = t' := by
    cases hover with
    | inl hinitiator =>
      exact Transcript.digest_inj.mp ((hinitiator.2.digest signature' hsig').symm.trans hdigest')
    | inr hresponder =>
      cases hover' with
      | inl hinitiator =>
        exact (Transcript.digest_inj.mp ((hinitiator.2.digest signature hsig).symm.trans hdigest)).symm
      | inr hresponder' =>
        -- Both would be responders, while the other end of a responder is an initiator.
        have hrole := hk.part.opposite hij hresponder.1
        rw [hresponder'.2.role hk.derived.ready] at hrole
        exact nomatch hrole
  subst hsame
  have hroles := hk.part.opposite hij hk'.part
  refine ⟨hroles, fun hkeys => Seed.eq_of_epochKeys hk.root hk'.root hkeys, fun hseed hgen => ?_,
    fun hseed hgen => ?_⟩
  · rw [hk.derived.send, hk'.derived.recv, hseed, hgen, hroles, Bool.not_not]
  · rw [hk'.derived.send, hk.derived.recv, hseed, hgen, hroles]

end Runs

section Rotation

open YumiBrowser.Group (member onlySigner flatHash zeroBytes epochRotate)

theorem talk_orderly : ((sudpSystem pairIdentity).restrict Orderly).Reachable (talkWorld 4) :=
  talk_established.restrict_mono fun _ _ hsecured => hsecured.1

theorem talk_established_with (i : Bool) : (talkWorld 4).EstablishedWith pairIdentity i !i := by
  have hends : ∀ i, ((talkWorld 4).client i).state = .established ∧
      ((talkWorld 4).established i).map Signature.key = some (pairIdentity !i).publicKey := by decide +kernel
  exact ⟨(hends i).1, Option.map_eq_some_iff.mp (hends i).2⟩

theorem pairIdentity_inj (i : Bool) : ∀ k, (pairIdentity k).publicKey = (pairIdentity i).publicKey → k = i := by
  intro k hk
  cases i <;> cases k
  · rfl
  · exact absurd (Group.publicKey_inj.mp hk) (by decide)
  · exact absurd (Group.publicKey_inj.mp hk) (by decide)
  · rfl

theorem key_agreement_talk : EndsAgree ((talkWorld 4).client true) ((talkWorld 4).client false) :=
  key_agreement (fun heq => nomatch heq) (pairIdentity_inj true) (pairIdentity_inj false) talk_orderly
    (talk_established_with true) (talk_established_with false)

def rotatedPair : Registrar :=
  (epochRotate (onlySigner flatHash (member 1)) pairRegistrar (zeroBytes 128) (member 1)
    ⟨3, 3000000⟩).toOption.getD pairRegistrar

def rotatedAround : Around Bool := ⟨rotatedPair, epochCheckIntervalUs, fun _ => false, .other 0⟩

def rotatedWorld : World Bool :=
  (talkWorld 5).next (.encrypt false flagReliable 0 0 firstPayload rotatedAround)

theorem rotatedWorld_reachable : (sudpSystem pairIdentity).Reachable rotatedWorld := by
  have hsent : (sudpSystem pairIdentity).Reachable (talkWorld 5) :=
    (talk_step talk_established rfl (.other trivial fun _ _ _ heq => nomatch heq) trivial).of_restrict
  have hsource : (false, firstPayload) ∈ (talkWorld 5).sent.map fun x => (x.sender, x.payload) := by
    rw [talk_sent]
    exact List.mem_singleton_self _
  obtain ⟨x, hx, heq⟩ := List.mem_map.mp hsource
  obtain ⟨hsender, hpayload⟩ := Prod.mk.inj heq
  have hen : Enabled pairIdentity (talkWorld 5)
      (.encrypt false flagReliable 0 0 firstPayload rotatedAround) :=
    ⟨by decide, .inr (.inr ⟨x, hx, hsender, hpayload⟩)⟩
  exact .step hsent ⟨hen, rfl⟩

-- The registrar of one end shows the rotation before the other end gets anything from it.
theorem rotation_met_by_one : ¬ ∀ (ident : Bool → Identity) (s : World Bool),
    (sudpSystem ident).Reachable s → (∀ i, s.EstablishedWith ident i !i) →
      (s.client true).rekeySeed = (s.client false).rekeySeed := by
  intro h
  have hends : (∀ i, (rotatedWorld.client i).state = .established ∧
      (rotatedWorld.established i).map Signature.key = some (pairIdentity !i).publicKey) ∧
      (rotatedWorld.client true).rekeySeed.epochKeys ≠ (rotatedWorld.client false).rekeySeed.epochKeys := by
    decide +kernel
  have hseed := h pairIdentity rotatedWorld rotatedWorld_reachable
    fun i => ⟨(hends.1 i).1, Option.map_eq_some_iff.mp (hends.1 i).2⟩
  exact hends.2 (congrArg Seed.epochKeys hseed)

end Rotation

end YumiBrowser.Sudp

import YumiBrowser.Network.SessionTraffic

namespace YumiBrowser.Sudp

open Wire Ideal Transition
open YumiBrowser.Group (Registrar PeerId)

variable {ι : Type}

structure Client.DealsWith (c : Client ι) (p : PeerId) : Prop where
  handshake : ∀ h, c.hs = some h → h.state ≠ .idle → h.peerId = p
  active : c.peerActive = true → c.peerId = p

def Message.IsFrom (e : Around ι) (c : Client ι) (p : PeerId) : Message ι → Prop
  | .hello msg => ∀ h, c.hs = some h → Heeded e c h msg → msg.peerId = p
  | _ => True

section Contexts

variable (e : Around ι) (c : Client ι) (h : Handshake ι)

structure KeepsPeer (c : Client ι) (h : Handshake ι) (c' : Client ι) : Prop where
  handshake : ∀ h', c'.hs = some h' → h'.peerId = h.peerId
  active : c'.peerActive = c.peerActive
  peerId : c'.peerId = c.peerId

variable {e c h}

theorem KeepsPeer.fail {c' : Client ι} {h' : Handshake ι} (hsame : h'.peerId = h.peerId)
    (hactive : c'.peerActive = c.peerActive) (hid : c'.peerId = c.peerId) (outs : List (Output ι)) :
    KeepsPeer c h (c'.fail h' outs).1 := by
  refine ⟨fun h'' hh'' => ?_, hactive, hid⟩
  cases hh''
  exact hsame

theorem peer_deriveKeys {c' : Client ι} {reg : Registrar} {mlkem : Shared ι} {frodo : Option (Shared ι)}
    {bp512 : Sym2 (Name ι)} (hkeys : deriveKeys reg c mlkem frodo bp512 = some c') :
    c'.peerActive = c.peerActive ∧ c'.peerId = c.peerId := by
  obtain ⟨_, _, rfl⟩ := Option.map_eq_some_iff.mp hkeys
  exact ⟨rfl, rfl⟩

theorem keepsPeer_respond (msg : Hello ι) : KeepsPeer c h (respond e c h msg).1 := by
  unfold respond
  dsimp only
  split
  · apply KeepsPeer.fail <;> rfl
  · split
    · apply KeepsPeer.fail <;> rfl
    · split
      · apply KeepsPeer.fail <;> rfl
      · split
        · apply KeepsPeer.fail <;> rfl
        · split
          · apply KeepsPeer.fail <;> rfl
          · next c' hkeys =>
            obtain ⟨hactive, hid⟩ := peer_deriveKeys hkeys
            split
            · apply KeepsPeer.fail
              · rfl
              · exact hactive
              · exact hid
            · refine ⟨fun h' hh' => ?_, hactive, hid⟩
              cases hh'
              rfl

variable [DecidableEq ι]

theorem keepsPeer_concludeResponse (msg : Response ι) (signKey : Group.PublicKey) (mlkem bp512 : Name ι) :
    KeepsPeer c h (concludeResponse e c h msg signKey mlkem bp512).1 := by
  unfold concludeResponse
  dsimp only
  generalize (if h.firstContact = true then msg.frodoCt else none) = frodoCt
  split
  · apply KeepsPeer.fail <;> rfl
  · split
    · apply KeepsPeer.fail <;> rfl
    · split
      · apply KeepsPeer.fail <;> rfl
      · next c' hkeys =>
        obtain ⟨hactive, hid⟩ := peer_deriveKeys hkeys
        split
        · exact KeepsPeer.fail (by rfl) hactive hid _
        · split
          · exact KeepsPeer.fail (by rfl) hactive hid _
          · exact ⟨(fun h' hh' => nomatch hh'), hactive, hid⟩

end Contexts

section Deals

variable {e : Around ι} {c : Client ι} {h : Handshake ι} {p : PeerId}

theorem Client.DealsWith.keeps {c' : Client ι} (hc : c.DealsWith p) (hhs : c.hs = some h)
    (hkeeps : KeepsPeer c h c') (hidle : h.state ≠ .idle) : c'.DealsWith p where
  handshake h' hh' _ := (hkeeps.handshake h' hh').trans (hc.handshake h hhs hidle)
  active ha := hkeeps.peerId.trans (hc.active (hkeeps.active.symm.trans ha))

theorem Client.DealsWith.renew {h' : Handshake ι} (hc : c.DealsWith p) (hhs : c.hs = some h)
    (hstate : h'.state = h.state) (hid : h'.peerId = h.peerId) (state : SessionState) :
    ({ c with state, hs := some h' } : Client ι).DealsWith p where
  handshake h'' hh'' hidle := by
    cases hh''
    exact hid.trans (hc.handshake h hhs (hstate ▸ hidle))
  active := hc.active

theorem Handshake.peerId_yield (h : Handshake ι) : h.yield.peerId = h.peerId := by
  unfold Handshake.yield
  split <;> rfl

theorem Client.DealsWith.hello {msg : Hello ι} (hc : c.DealsWith p) (hhs : c.hs = some h)
    (hfrom : Message.IsFrom e c p (.hello msg)) : (processHello e c h msg).1.DealsWith p := by
  rcases processHello_cases e c h msg with ⟨_, heq | heq⟩ | ⟨hheeded, heq⟩
  · rw [heq]
    exact hc
  · rw [heq]
    exact hc.renew hhs h.state_yield h.peerId_yield c.state
  · have hid := hfrom h hhs hheeded
    rw [heq]
    have hkeeps := keepsPeer_respond (e := e) (c := becomeResponder e c msg)
      (h := { h.yield with peerId := msg.peerId, firstContact := msg.firstContact ≠ 0 }) msg
    exact ⟨fun h' hh' _ => (hkeeps.handshake h' hh').trans hid, fun _ => hkeeps.peerId.trans hid⟩

variable [DecidableEq ι]

theorem Client.DealsWith.response {msg : Response ι} (hc : c.DealsWith p) (hhs : c.hs = some h) :
    (processResponse e c h msg).1.DealsWith p := by
  rcases processResponse_cases e c h msg with
    heq | heq | ⟨hsent, peer, mlkem, bp512, _, _, _, _, _, heq⟩
  · rw [heq]
    exact hc
  · rw [heq]
    exact hc.renew hhs rfl rfl .failed
  · rw [heq]
    exact hc.keeps hhs (keepsPeer_concludeResponse ..) (by simp [hsent])

theorem Client.DealsWith.confirm {msg : Confirm ι} (hc : c.DealsWith p) (hhs : c.hs = some h) :
    (processConfirm e c h msg).1.DealsWith p := by
  rcases processConfirm_cases e c h msg with heq | heq | ⟨_, _, _, _, _, heq⟩
  · rw [heq]
    exact hc
  · rw [heq]
    exact hc.renew hhs rfl rfl .failed
  · rw [heq]
    exact ⟨(fun _ hnone => nomatch hnone), hc.active⟩

theorem Client.DealsWith.message {msg : Message ι} (hc : c.DealsWith p) (hfrom : msg.IsFrom e c p) :
    (processHandshakeMsg e c msg).1.DealsWith p := by
  unfold processHandshakeMsg
  cases hhs : c.hs with
  | none => exact hc
  | some h =>
    cases msg with
    | hello msg => exact hc.hello hhs hfrom
    | response msg => exact hc.response hhs
    | confirm msg => exact hc.confirm hhs

omit [DecidableEq ι] in
theorem Client.DealsWith.connect (hc : c.DealsWith p) (e : Around ι) :
    (workerConnect e c p).1.DealsWith p := by
  unfold workerConnect
  split
  · exact hc
  · dsimp only
    split
    · next hidle =>
      cases hhs : c.hs with
      | none =>
        rw [hhs] at hidle
        exact absurd rfl hidle
      | some h =>
        split
        · exact hc.renew hhs rfl rfl .handshaking
        · exact hc.renew hhs rfl rfl c.state
    · have hdialed : ∀ (h : Handshake ι) (c' : Client ι), h.peerId = p → c'.hs = some h → c'.peerId = p →
          c'.DealsWith p := by
        intro h c' hid hhs hpeer
        refine ⟨fun h' hh' _ => ?_, fun _ => hpeer⟩
        cases hhs.symm.trans hh'
        exact hid
      split
      · exact hdialed _ _ rfl rfl rfl
      · split
        · exact hdialed _ _ rfl rfl rfl
        · exact hdialed _ _ rfl rfl rfl

omit [DecidableEq ι] in
theorem Client.DealsWith.continues {c' : Client ι} (hc : c.DealsWith p) (hcont : Continues c c') :
    c'.DealsWith p where
  handshake := hcont.hs ▸ hc.handshake
  active ha := by
    have hid := congrArg Client.peerId hcont.fixed
    exact hid.trans (hc.active (hcont.active ha))

theorem active_message {msg : Message ι} (h : (processHandshakeMsg e c msg).1.peerActive = true) :
    c.peerActive = true ∨ ∃ own h, msg = .hello own ∧ c.hs = some h ∧ Heeded e c h own := by
  unfold processHandshakeMsg at h
  cases hhs : c.hs with
  | none =>
    rw [hhs] at h
    exact .inl h
  | some h₀ =>
    rw [hhs] at h
    cases msg with
    | hello own =>
      dsimp only at h
      rcases processHello_cases e c h₀ own with ⟨_, heq | heq⟩ | ⟨hheeded, _⟩
      · rw [heq] at h
        exact .inl h
      · rw [heq] at h
        exact .inl h
      · exact .inr ⟨own, h₀, rfl, rfl, hheeded⟩
    | response msg =>
      dsimp only at h
      rcases processResponse_cases e c h₀ msg with heq | heq | ⟨_, _, _, _, _, _, _, _, _, heq⟩
      · rw [heq] at h
        exact .inl h
      · rw [heq] at h
        exact .inl h
      · rw [heq, (keepsPeer_concludeResponse msg _ _ _).active] at h
        exact .inl h
    | confirm msg =>
      dsimp only at h
      rcases processConfirm_cases e c h₀ msg with heq | heq | ⟨_, _, _, _, _, heq⟩
      · rw [heq] at h
        exact .inl h
      · rw [heq] at h
        exact .inl h
      · rw [heq] at h
        exact .inl h

section Rekeying

variable {p : Group.Peer}

omit [DecidableEq ι] in
theorem inactive_epochRekey (hrow : e.reg.peers.find? c.peerId = some p)
    (hp : p.status ≠ Group.PeerStatus.active) (epoch : Group.Epoch) :
    (epochRekey e.reg c epoch).peerActive = false := by
  unfold epochRekey
  dsimp only
  rw [hrow]
  exact if_pos hp

omit [DecidableEq ι] in
theorem inactive_refreshEpoch (hrow : e.reg.peers.find? c.peerId = some p)
    (hp : p.status ≠ Group.PeerStatus.active) (pt : List Byte) :
    (refreshEpoch e c pt).1.rekeySeed = c.rekeySeed ∨ (refreshEpoch e c pt).1.peerActive = false := by
  unfold refreshEpoch
  split
  · dsimp only
    split
    · next epoch _ =>
      split
      · exact .inr (inactive_epochRekey (c := { c with epochCheckLastUs := e.now }) hrow hp epoch)
      · exact .inl rfl
    · exact .inl rfl
  · exact .inl rfl

omit [DecidableEq ι] in
theorem sealWith_keeps (session : Bool) (pt : List Byte) :
    (sealWith c session pt).1.rekeySeed = c.rekeySeed ∧ (sealWith c session pt).1.peerActive = c.peerActive := by
  unfold sealWith sendRekey
  dsimp only
  split
  · split <;> exact ⟨rfl, rfl⟩
  · exact ⟨rfl, rfl⟩

omit [DecidableEq ι] in
theorem inactive_pktEncrypt (hrow : e.reg.peers.find? c.peerId = some p)
    (hp : p.status ≠ Group.PeerStatus.active) (pt : List Byte) :
    (pktEncrypt e c pt).1.1.rekeySeed = c.rekeySeed ∨ (pktEncrypt e c pt).1.1.peerActive = false := by
  unfold pktEncrypt
  split
  · exact .inl rfl
  · dsimp only
    rw [(sealWith_keeps ..).1, (sealWith_keeps ..).2]
    split
    · exact inactive_refreshEpoch hrow hp pt
    · exact .inl rfl

theorem openSession_keeps {c' : Client ι} {d : Datagram ι} (h : openSession c d = some c') :
    c'.rekeySeed = c.rekeySeed := by
  unfold openSession at h
  dsimp only at h
  split at h
  · cases h
  · split at h
    · split at h
      · cases h
        rfl
      · cases h
    · split at h
      · cases h
        rfl
      · cases h

theorem inactive_pktDecrypt (hrow : e.reg.peers.find? c.peerId = some p)
    (hp : p.status ≠ Group.PeerStatus.active) (d : Option (Datagram ι)) :
    (pktDecrypt e c d).1.1.rekeySeed = c.rekeySeed ∨ (pktDecrypt e c d).1.1.peerActive = false := by
  unfold pktDecrypt
  split
  · exact .inl rfl
  · split
    · exact .inl rfl
    · dsimp only
      unfold openDatagram
      split
      · next c' hopen =>
        have hkept := openSession_keeps hopen
        exact .inl hkept
      · split
        · exact .inl rfl
        · split
          · exact .inl rfl
          · next epoch _ =>
            have hinactive := inactive_epochRekey hrow hp epoch
            dsimp only
            split
            · exact .inr hinactive
            · exact .inr hinactive

end Rekeying

end Deals

section Outputs

variable {e : Around ι} {c : Client ι} {h : Handshake ι}

theorem plain_respond (msg : Hello ι) : ∀ out ∈ (respond e c h msg).2, out.Plain := by
  rcases respond_cases e c h msg with
    ⟨h', outs, heq, _, _, houts⟩ | ⟨c', h', response, _, _, _, _, _, _, heq | heq⟩
  · rw [heq]
    rcases houts with rfl | ⟨_, rfl⟩ <;> simp [Client.fail, Output.Plain]
  · rw [heq]
    simp [Client.fail, Output.Plain]
  · rw [heq]
    simp [Output.Plain]

theorem plain_processHello (msg : Hello ι) : ∀ out ∈ (processHello e c h msg).2, out.Plain := by
  rcases processHello_cases e c h msg with ⟨_, heq | heq⟩ | ⟨_, heq⟩
  · rw [heq]
    exact fun _ hin => nomatch hin
  · rw [heq]
    exact fun _ hin => nomatch hin
  · rw [heq]
    exact plain_respond msg

theorem plain_workerConnect (p : PeerId) : ∀ out ∈ (workerConnect e c p).2, out.Plain := by
  unfold workerConnect
  split
  · exact fun _ hin => nomatch hin
  · dsimp only
    split
    · split <;> simp [setState, Output.Plain]
    · split
      · simp [Client.fail, Output.Plain]
      · split <;> simp [Client.fail, Output.Plain]

variable [DecidableEq ι]

structure ConcludedBy (e : Around ι) (c : Client ι) (msg : Message ι) (signature : Sig ι) : Prop where
  message : msg.signature? = some signature
  outputs : Establishes signature (processHandshakeMsg e c msg).2
  key : ∃ h peer, c.hs = some h ∧ h.state ≠ .idle ∧ e.reg.peers.find? h.peerId = some peer ∧
    signature.key = peer.signKey

theorem ConcludedBy.keyOf {msg : Message ι} {signature : Sig ι} (h : ConcludedBy e c msg signature)
    (hc : c.DealsWith p) : (e.reg.peers.find? p).map (·.signKey) = some signature.key := by
  obtain ⟨h', peer, hhs, hidle, hpeer, hkey⟩ := h.key
  rw [← hc.handshake h' hhs hidle, hpeer, hkey]
  rfl

theorem outputs_response {msg : Response ι} (hhs : c.hs = some h) :
    (∀ out ∈ (processResponse e c h msg).2, out.Plain) ∨
      ∃ signature, ConcludedBy e c (.response msg) signature := by
  rcases processResponse_cases e c h msg with
    heq | heq | ⟨hsent, peer, mlkem, bp512, hpeer, _, hid, _, _, heq⟩
  · rw [heq]
    exact .inl fun _ hin => nomatch hin
  · rw [heq]
    exact .inl (by simp [Client.fail, Output.Plain])
  · rcases concludeResponse_cases e c h msg peer.signKey mlkem bp512 with
      ⟨_, _, hfails, _, _, houts⟩ | ⟨c', hsig, _, ⟨_, _, hfails, _, houts⟩ | hdone⟩
    · refine .inl ?_
      rw [heq, hfails]
      rcases houts with rfl | rfl <;> simp [Client.fail, Output.Plain]
    · refine .inl ?_
      rw [heq, hfails]
      rcases houts with ⟨_, rfl⟩ | ⟨_, rfl⟩ <;> simp [Client.fail, Output.Plain]
    · refine .inr ⟨msg.signature, rfl, ?_, h, peer, hhs, by simp [hsent], hid ▸ hpeer, by rw [hsig]⟩
      rw [processHandshakeMsg, hhs]
      change Establishes _ (processResponse e c h msg).2
      rw [heq, hdone, hsig]
      exact .response _ _

theorem outputs_confirm {msg : Confirm ι} (hhs : c.hs = some h) :
    (∀ out ∈ (processConfirm e c h msg).2, out.Plain) ∨
      ∃ signature, ConcludedBy e c (.confirm msg) signature := by
  rcases processConfirm_cases e c h msg with heq | heq | ⟨hwaits, peer, hpeer, _, hsig, heq⟩
  · rw [heq]
    exact .inl fun _ hin => nomatch hin
  · rw [heq]
    exact .inl (by simp [Client.fail, Output.Plain])
  · refine .inr ⟨msg.signature, rfl, ?_, h, peer, hhs, by simp [hwaits], hpeer, by rw [hsig]⟩
    rw [processHandshakeMsg, hhs]
    change Establishes _ (processConfirm e c h msg).2
    rw [heq]
    exact .confirm

theorem outputs_message (e : Around ι) (c : Client ι) (msg : Message ι) :
    (∀ out ∈ (processHandshakeMsg e c msg).2, out.Plain) ∨ ∃ signature, ConcludedBy e c msg signature := by
  cases hhs : c.hs with
  | none =>
    rw [processHandshakeMsg, hhs]
    exact .inl fun _ hin => absurd hin List.not_mem_nil
  | some h =>
    cases msg with
    | hello msg =>
      rw [processHandshakeMsg, hhs]
      exact .inl (plain_processHello msg)
    | response msg =>
      refine (outputs_response hhs).imp_left fun hplain => ?_
      rw [processHandshakeMsg, hhs]
      exact hplain
    | confirm msg =>
      refine (outputs_confirm hhs).imp_left fun hplain => ?_
      rw [processHandshakeMsg, hhs]
      exact hplain

end Outputs

end YumiBrowser.Sudp

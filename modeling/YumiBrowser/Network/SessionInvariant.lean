import YumiBrowser.Network.Continuation

namespace YumiBrowser.Sudp

open Wire Ideal Transition
open YumiBrowser.Group (Registrar Identity PeerId PublicKey EpochKey epochGetCurrent)

variable {ι : Type}

section Order

variable (e : Around ι) (c : Client ι)

def DialedOnce : Prop := c.hs = none → c.state = .established

def HelloInOrder (msg : Hello ι) : Prop :=
  ∀ h, c.hs = some h → Heeded e c h msg →
    c.transportKeyReady = false ∧ (h.state = .helloSent ∨ h.transcript ≠ none)

def responseDigest (h : Handshake ι) (msg : Response ι) : Digest ι :=
  finalHash (feed h.transcript [.response msg.peerId msg.mlkemCt msg.bp512Pk
    (if h.firstContact then msg.frodoCt else none)]) e.noise

def ResponseInOrder (msg : Response ι) : Prop :=
  ∀ h, c.hs = some h → h.state = .helloSent → msg.signature.digest = responseDigest e h msg →
    ∃ own, h.transcript = some [.hello own]

def MessageInOrder : Message ι → Prop
  | .hello msg => HelloInOrder e c msg
  | .response msg => ResponseInOrder e c msg
  | .confirm _ => True

/-- The handshake goes through its steps once, and in order. -/
def Orderly (s : World ι) : Event ι → Prop
  | .connect i _ _ => DialedOnce (s.client i)
  | .handshake i msg e => MessageInOrder e (s.client i) msg
  | _ => True

end Order

section Invariant

variable [DecidableEq ι] (ident : ι → Identity)

structure Client.Unready (i : ι) (c : Client ι) : Prop where
  ready : c.transportKeyReady = false
  send : c.sendSubkeys = .zero
  handshake : ∃ h, c.hs = some h ∧ h.state ≠ .waitConfirm ∧
    ∀ chunks, h.transcript = some chunks →
      chunks = [] ∨ h.state = .helloSent ∧ c.isInitiator = true ∧ ∃ own n, chunks = [.hello own] ∧
        own.mlkemPk = .honest i n ∧ h.mlkem = some own.mlkemPk ∧ h.bp512 = some own.bp512Pk ∧
        h.frodo = own.frodoPk

structure Client.Keyed (i : ι) (c : Client ι) (t : Transcript ι) (k : EpochKey) : Prop where
  derived : c.Derived
  root : c.root? = some (t.root k)
  part : t.TookPart ident i c.isInitiator
  closed : ∀ h, c.hs = some h → h.state ≠ .idle ∧ ∀ chunks, h.transcript = some chunks → chunks = []
  waiting : ∀ h, c.hs = some h → h.state = .waitConfirm → h.transcriptHash = t.digest

structure Client.Inv (i : ι) (c : Client ι) (established : Option (Sig ι)) : Prop where
  self : c.self = i
  identity : c.identity = ident i
  phase : c.Unready i ∧ established = none ∨ ∃ t k, c.Keyed ident i t k ∧
    (∀ signature, established = some signature → signature.digest = t.digest) ∧
    (c.hs = none → established ≠ none)

def SignedBy (i : ι) (signature : Sig ι) : Prop :=
  signature.key = (ident i).publicKey ∧
    ∃ t : Transcript ι, signature.digest = t.digest ∧ ∃ b, t.TookPart ident i b

def Steady (c c' : Client ι) : Prop :=
  c.transportKeyReady = true →
    c'.transportKeyReady = true ∧ c'.root? = c.root? ∧ c'.isInitiator = c.isInitiator

def Output.Plain : Output ι → Prop
  | .state new => new ≠ .established
  | .message _ | .signed _ | .verified _ => True
  | .queued _ _ | .received _ _ _ => False

inductive Establishes (signature : Sig ι) : List (Output ι) → Prop
  | confirm : Establishes signature [.verified signature, .state .established]
  | response (own : Sig ι) (m : Message ι) :
    Establishes signature [.verified signature, .signed own, .message m, .state .established]

structure Advances (i : ι) (c : Client ι) (established : Option (Sig ι)) (o : Outcome ι)
    (established' : Option (Sig ι)) : Prop where
  inv : o.1.Inv ident i established'
  steady : Steady c o.1
  signed : ∀ signature, .signed signature ∈ o.2 → SignedBy ident i signature
  outputs : established' = established ∧ (∀ out ∈ o.2, out.Plain) ∨
    ∃ signature, established' = some signature ∧ Establishes signature o.2

end Invariant

section Steps

variable [DecidableEq ι] {ident : ι → Identity} {i : ι} {c c' : Client ι}
  {established : Option (Sig ι)}

omit [DecidableEq ι] in
theorem Steady.same (hready : c'.transportKeyReady = c.transportKeyReady)
    (hroot : c'.root? = c.root?) (hrole : c'.isInitiator = c.isInitiator) : Steady c c' :=
  fun h => ⟨hready.trans h, hroot, hrole⟩

omit [DecidableEq ι] in
theorem Steady.unready (h : c.transportKeyReady = false) : Steady c c' :=
  fun hready => absurd (h.symm.trans hready) Bool.false_ne_true

theorem Client.Inv.continues (hc : c.Inv ident i established) (hcont : Continues c c')
    (hderived : c.Derived → c'.Derived) : c'.Inv ident i established ∧ Steady c c' := by
  have hself := congrArg Client.self hcont.fixed
  have hidentity := congrArg Client.identity hcont.fixed
  refine ⟨⟨hself.trans hc.self, hidentity.trans hc.identity, ?_⟩,
    .same hcont.ready hcont.root hcont.role⟩
  cases hc.phase with
  | inl hunready =>
    obtain ⟨h, hest⟩ := hunready
    refine .inl ⟨⟨hcont.ready.trans h.ready, (hcont.unkeyed h.ready).trans h.send, ?_⟩, hest⟩
    rw [hcont.hs, hcont.role]
    exact h.handshake
  | inr hkeyed =>
    obtain ⟨t, k, h, hest, hdone⟩ := hkeyed
    refine .inr ⟨t, k, ⟨hderived h.derived, hcont.root.trans h.root, ?_, ?_, ?_⟩, hest, ?_⟩
    · rw [hcont.role]
      exact h.part
    · rw [hcont.hs]
      exact h.closed
    · rw [hcont.hs]
      exact h.waiting
    · rw [hcont.hs]
      exact hdone

omit [DecidableEq ι] in
theorem Handshake.state_yield (h : Handshake ι) : h.yield.state = h.state := by
  unfold Handshake.yield
  split <;> rfl

omit [DecidableEq ι] in
theorem Client.Unready.renew {h : Handshake ι} (hu : c.Unready i)
    (hready : c'.transportKeyReady = c.transportKeyReady) (hsend : c'.sendSubkeys = c.sendSubkeys)
    (hhs : c'.hs = some h) (hstate : h.state ≠ .waitConfirm)
    (hchunks : ∀ chunks, h.transcript = some chunks → chunks = []) : c'.Unready i where
  ready := hready.trans hu.ready
  send := hsend.trans hu.send
  handshake := ⟨h, hhs, hstate, fun chunks hin => .inl (hchunks chunks hin)⟩

theorem Client.Keyed.renew {t : Transcript ι} {k : EpochKey} {h : Handshake ι}
    (hk : c.Keyed ident i t k) (state : SessionState) (hidle : h.state ≠ .idle)
    (hchunks : ∀ chunks, h.transcript = some chunks → chunks = [])
    (hwaiting : h.state = .waitConfirm → h.transcriptHash = t.digest) :
    ({ c with state, hs := some h } : Client ι).Keyed ident i t k where
  derived := ⟨hk.derived.ready, hk.derived.send, hk.derived.recv⟩
  root := hk.root
  part := hk.part
  closed := by
    intro h' hh'
    cases hh'
    exact ⟨hidle, hchunks⟩
  waiting := by
    intro h' hh'
    cases hh'
    exact hwaiting

theorem Client.Inv.giveUp {h h' : Handshake ι} (hc : c.Inv ident i established) (hhs : c.hs = some h)
    (state : SessionState) (hstate : h'.state = h.state)
    (hhash : h.state = .waitConfirm → h'.transcriptHash = h.transcriptHash)
    (htranscript : (h'.transcript = none ∨ h'.transcript = some []) ∨
      h'.transcript = h.transcript ∧ h'.mlkem = h.mlkem ∧ h'.bp512 = h.bp512 ∧ h'.frodo = h.frodo) :
    ({ c with state, hs := some h' } : Client ι).Inv ident i established := by
  refine ⟨hc.self, hc.identity, ?_⟩
  cases hc.phase with
  | inl hunready =>
    obtain ⟨hu, hest⟩ := hunready
    refine .inl ⟨⟨hu.ready, hu.send, h', rfl, ?_⟩, hest⟩
    obtain ⟨h₀, hh₀, hwait, hopen⟩ := hu.handshake
    cases hhs.symm.trans hh₀
    refine ⟨hstate ▸ hwait, fun chunks hchunks => ?_⟩
    rcases htranscript with (hnone | hempty) | ⟨hsame, hmlkem, hbp512, hfrodo⟩
    · exact nomatch hnone.symm.trans hchunks
    · cases hempty.symm.trans hchunks
      exact .inl rfl
    · rw [hstate, hmlkem, hbp512, hfrodo]
      exact hopen chunks (hsame.symm.trans hchunks)
  | inr hkeyed =>
    obtain ⟨t, k, hk, hest, _⟩ := hkeyed
    obtain ⟨hidle, hclosed⟩ := hk.closed h hhs
    refine .inr ⟨t, k, hk.renew state (hstate ▸ hidle) ?_ ?_, hest, fun hnone => nomatch hnone⟩
    · intro chunks hchunks
      rcases htranscript with (hnone | hempty) | ⟨hsame, _⟩
      · exact nomatch hnone.symm.trans hchunks
      · cases hempty.symm.trans hchunks
        rfl
      · exact hclosed chunks (hsame.symm.trans hchunks)
    · intro hwaits
      have hwaits := hstate.symm.trans hwaits
      rw [hhash hwaits]
      exact hk.waiting h hhs hwaits

theorem Client.Inv.yields {h : Handshake ι} (hc : c.Inv ident i established) (hhs : c.hs = some h) :
    ({ c with hs := some h.yield } : Client ι).Inv ident i established := by
  by_cases hsent : h.state = .helloSent
  · have hyield : h.yield = { h with bp512 := none, transcript := some [] } := if_pos hsent
    rw [hyield]
    exact hc.giveUp hhs c.state rfl (fun _ => rfl) (.inl (.inr rfl))
  · have hyield : h.yield = h := if_neg hsent
    rw [hyield, ← hhs]
    exact hc

theorem Advances.refl (hc : c.Inv ident i established) :
    Advances ident i c established (c, []) established where
  inv := hc
  steady := .same rfl rfl rfl
  signed _ hsigned := nomatch hsigned
  outputs := .inl ⟨rfl, fun _ hout => nomatch hout⟩

omit [DecidableEq ι] in
theorem keyed_deriveKeys {reg : Registrar} {mlkem : Shared ι} {frodo : Option (Shared ι)}
    {bp512 : Sym2 (Name ι)} (hkeys : deriveKeys reg c mlkem frodo bp512 = some c') :
    c'.self = c.self ∧ c'.isInitiator = c.isInitiator ∧ c'.Derived ∧
      ∃ epoch, epochGetCurrent reg = some epoch ∧ c'.epochId = epoch.epochId ∧
        c'.rekeySeed = .init ⟨mlkem, frodo, bp512, epoch.epochKey⟩ := by
  obtain ⟨epoch, hepoch, rfl⟩ := Option.map_eq_some_iff.mp hkeys
  exact ⟨rfl, rfl, ⟨rfl, rfl, rfl⟩, epoch, hepoch, rfl, rfl⟩

theorem root_answered (c : Client ι) (msg : Hello ι) (k : EpochKey) :
    (answered c msg).root k = ⟨.agreed msg.mlkemPk (c.draw 0),
      if msg.firstContact ≠ 0 then msg.frodoPk.map fun pk => .agreed pk (c.draw 2) else none,
      s(c.draw 1, msg.bp512Pk), k⟩ := by
  simp only [Transcript.root, answered, Root.mk.injEq, and_true]
  refine ⟨decaps_encaps _ _, ?_, Sym2.eq_swap⟩
  cases msg.frodoPk with
  | none => split <;> rfl
  | some pk =>
    split
    · exact congrArg some (decaps_encaps pk _)
    · rfl

theorem advances_respond {h : Handshake ι} (hself : c.self = i) (hidentity : c.identity = ident i)
    (hready : c.transportKeyReady = false) (hsend : c.sendSubkeys = .zero)
    (hrole : c.isInitiator = false) (hempty : h.transcript = some [])
    (hstate : h.state ≠ .waitConfirm) (e : Around ι) (msg : Hello ι) :
    Advances ident i c none (respond e c h msg) none := by
  have hpart : (answered c msg).TookPart ident i false := by
    refine ⟨congrArg Identity.peerId hidentity, c.drawn, ?_⟩
    rw [← hself]
    rfl
  have hdigest : finalHash (feed h.transcript (answered c msg).chunks) e.noise =
      (answered c msg).digest := by
    rw [hempty]
    rfl
  have hsig : SignedBy ident i (⟨c.identity.publicKey,
      finalHash (feed h.transcript (answered c msg).chunks) e.noise⟩ : Sig ι) :=
    ⟨congrArg Identity.publicKey hidentity, answered c msg, hdigest, false, hpart⟩
  cases respond_cases e c h msg with
  | inl hstop =>
    obtain ⟨h', outs, heq, hstate', htranscript, houts⟩ := hstop
    rw [heq]
    refine ⟨⟨hself, hidentity, .inl ⟨⟨hready, hsend, h', rfl, hstate' ▸ hstate, ?_⟩, rfl⟩⟩,
      .unready hready, ?_, .inl ⟨rfl, ?_⟩⟩
    · refine fun chunks hchunks => .inl ?_
      cases htranscript with
      | inl hsame => exact (Option.some.inj (hempty.symm.trans (hsame.symm.trans hchunks))).symm
      | inr hnone => exact nomatch hnone.symm.trans hchunks
    · intro signature hin
      rcases houts with rfl | ⟨_, rfl⟩
      · simp [Client.fail] at hin
      · obtain rfl : signature = _ := by simpa [Client.fail] using hin
        exact hsig
    · rcases houts with rfl | ⟨_, rfl⟩ <;> simp [Client.fail, Output.Plain]
  | inr hkeys =>
    obtain ⟨c', h', response, hkeys, hwaits, hfreed, hhash, _, _, heq⟩ := hkeys
    obtain ⟨hself', hrole', hderived, epoch, _, _, hseed⟩ := keyed_deriveKeys hkeys
    have hkeyed : ∀ state, ({ c' with state, hs := some h' } : Client ι).Inv ident i none := by
      intro state
      refine ⟨hself'.trans hself, (identity_deriveKeys hkeys).trans hidentity, .inr ⟨answered c msg,
        epoch.epochKey, ⟨⟨hderived.ready, hderived.send, hderived.recv⟩, ?_, ?_, ?_, ?_⟩,
        (fun _ hnone => nomatch hnone), fun hnone => nomatch hnone⟩⟩
      · rw [root_answered]
        exact congrArg Seed.root? hseed
      · change (answered c msg).TookPart ident i c'.isInitiator
        rw [hrole'.trans hrole]
        exact hpart
      · intro h'' hh''
        cases hh''
        rw [hwaits]
        exact ⟨(fun heq => nomatch heq), fun chunks hchunks => nomatch hfreed.symm.trans hchunks⟩
      · intro h'' hh'' _
        cases hh''
        exact hhash.trans hdigest
    cases heq with
    | inl heq =>
      rw [heq]
      refine ⟨hkeyed .failed, .unready hready, ?_, .inl ⟨rfl, by simp [Client.fail, Output.Plain]⟩⟩
      intro signature hin
      obtain rfl : signature = _ := by simpa [Client.fail] using hin
      exact hsig
    | inr heq =>
      rw [heq]
      refine ⟨hkeyed c'.state, .unready hready, ?_, .inl ⟨rfl, by simp [Output.Plain]⟩⟩
      intro signature hin
      obtain rfl : signature = _ := by simpa using hin
      exact hsig

theorem Client.Inv.heeds {h : Handshake ι} {e : Around ι} {msg : Hello ι}
    (hc : c.Inv ident i established) (hhs : c.hs = some h) (horder : HelloInOrder e c msg)
    (hheeded : Heeded e c h msg) :
    established = none ∧ c.Unready i ∧ h.yield.transcript = some [] ∧ h.state ≠ .waitConfirm := by
  obtain ⟨hunready, hopen⟩ := horder h hhs hheeded
  cases hc.phase with
  | inr hkeyed =>
    obtain ⟨_, _, hk, _⟩ := hkeyed
    exact absurd (hunready.symm.trans hk.derived.ready) Bool.false_ne_true
  | inl hunkeyed =>
    obtain ⟨hu, hest⟩ := hunkeyed
    obtain ⟨h₀, hh₀, hwait, hchunks⟩ := hu.handshake
    cases hhs.symm.trans hh₀
    refine ⟨hest, hu, ?_, hwait⟩
    by_cases hsent : h.state = .helloSent
    · rw [Handshake.yield, if_pos hsent]
    · obtain ⟨chunks, hsome⟩ := Option.ne_none_iff_exists'.mp (hopen.resolve_left hsent)
      rw [Handshake.yield, if_neg hsent, hsome]
      cases hchunks chunks hsome with
      | inl hnil => rw [hnil]
      | inr hown => exact absurd hown.1 hsent

theorem Client.Inv.hello {h : Handshake ι} {e : Around ι} {msg : Hello ι}
    (hc : c.Inv ident i established) (hhs : c.hs = some h) (horder : HelloInOrder e c msg) :
    Advances ident i c established (processHello e c h msg) established := by
  rcases processHello_cases e c h msg with ⟨_, heq | heq⟩ | ⟨hheeded, heq⟩
  · rw [heq]
    exact .refl hc
  · rw [heq]
    exact ⟨hc.yields hhs, .same rfl rfl rfl, (fun _ hin => nomatch hin),
      .inl ⟨rfl, fun _ hin => nomatch hin⟩⟩
  · obtain ⟨rfl, hu, hempty, hwait⟩ := hc.heeds hhs horder hheeded
    rw [heq]
    have hresponds : Advances ident i (becomeResponder e c msg) none
        (respond e (becomeResponder e c msg)
          { h.yield with peerId := msg.peerId, firstContact := msg.firstContact ≠ 0 } msg) none := by
      apply advances_respond
      · exact hc.self
      · exact hc.identity
      · exact hu.ready
      · exact hu.send
      · rfl
      · exact hempty
      · exact h.state_yield.trans_ne hwait
    exact ⟨hresponds.inv, .unready hu.ready, hresponds.signed, hresponds.outputs⟩

theorem Client.Inv.fail {h : Handshake ι} (hc : c.Inv ident i established) (hhs : c.hs = some h) :
    Advances ident i c established (c.fail h []) established where
  inv := hc.giveUp hhs .failed rfl (fun _ => rfl) (.inr ⟨rfl, rfl, rfl, rfl⟩)
  steady := .same rfl rfl rfl
  signed signature hin := by simp [Client.fail] at hin
  outputs := .inl ⟨rfl, by simp [Client.fail, Output.Plain]⟩

structure Initiated (ident : ι → Identity) (i : ι) (c c' : Client ι) (digest : Digest ι)
    (t : Transcript ι) (k : EpochKey) : Prop where
  unready : c.Unready i
  self : c'.self = i
  identity : c'.identity = ident i
  derived : c'.Derived
  root : c'.root? = some (t.root k)
  role : c'.isInitiator = true
  part : t.TookPart ident i true
  digest : digest = t.digest

theorem Client.Inv.concludes {h : Handshake ι} {e : Around ι} {msg : Response ι} {signKey : PublicKey}
    {mlkem bp512 : Name ι} (hc : c.Inv ident i established) (hhs : c.hs = some h)
    (hsent : h.state = .helloSent) (hmlkem : h.mlkem = some mlkem) (hbp512 : h.bp512 = some bp512)
    (horder : ResponseInOrder e c msg) (hsig : msg.signature = ⟨signKey, responseDigest e h msg⟩)
    (hkeys : deriveKeys e.reg c (decaps mlkem msg.mlkemCt)
      (h.frodo.bind fun key => (if h.firstContact then msg.frodoCt else none).map (decaps key))
      s(bp512, msg.bp512Pk) = some c') :
    established = none ∧ ∃ t k, Initiated ident i c c' (responseDigest e h msg) t k := by
  obtain ⟨own, hown⟩ := horder h hhs hsent (congrArg Signature.digest hsig)
  cases hc.phase with
  | inr hkeyed =>
    obtain ⟨_, _, hk, _⟩ := hkeyed
    exact nomatch (hk.closed h hhs).2 _ hown
  | inl hunkeyed =>
    obtain ⟨hu, rfl⟩ := hunkeyed
    obtain ⟨h₀, hh₀, _, hchunks⟩ := hu.handshake
    cases hhs.symm.trans hh₀
    cases hchunks _ hown with
    | inl hnil => exact nomatch hnil
    | inr hopen =>
      obtain ⟨_, hrole, own', n, heq, hhonest, hmlkem', hbp512', hfrodo⟩ := hopen
      obtain rfl : own = own' := by simpa using heq
      obtain ⟨hself', hrole', hderived, epoch, _, _, hseed⟩ := keyed_deriveKeys hkeys
      refine ⟨rfl, completed h own msg, epoch.epochKey, hu, hself'.trans hc.self,
        (identity_deriveKeys hkeys).trans hc.identity, hderived, ?_, hrole'.trans hrole, ⟨n, hhonest⟩, ?_⟩
      · rw [Option.some.inj (hmlkem.symm.trans hmlkem'), Option.some.inj (hbp512.symm.trans hbp512'),
          hfrodo] at hseed
        exact congrArg Seed.root? hseed
      · rw [responseDigest, hown]
        rfl

section Initiated

variable {t : Transcript ι} {k : EpochKey} {digest : Digest ι}

theorem Initiated.signedBy (hc : Initiated ident i c c' digest t k) :
    SignedBy ident i (⟨c'.identity.publicKey, digest⟩ : Sig ι) :=
  ⟨congrArg Identity.publicKey hc.identity, t, hc.digest, true, hc.part⟩

theorem Initiated.inv {state : SessionState} {hs : Option (Handshake ι)}
    (hc : Initiated ident i c c' digest t k)
    (hclosed : ∀ h, hs = some h → h.state ≠ .idle ∧ h.state ≠ .waitConfirm ∧ h.transcript = none)
    (hsig : ∀ signature, established = some signature → signature.digest = t.digest)
    (hdone : hs = none → established ≠ none) :
    ({ c' with state, hs } : Client ι).Inv ident i established := by
  refine ⟨hc.self, hc.identity, .inr ⟨t, k, ⟨⟨hc.derived.ready, hc.derived.send, hc.derived.recv⟩,
    hc.root, ?_, ?_, ?_⟩, hsig, hdone⟩⟩
  · change t.TookPart ident i c'.isInitiator
    rw [hc.role]
    exact hc.part
  · intro h hh
    obtain ⟨hidle, _, hfreed⟩ := hclosed h hh
    exact ⟨hidle, fun chunks hchunks => nomatch hfreed.symm.trans hchunks⟩
  · intro h hh hwaits
    exact absurd hwaits (hclosed h hh).2.1

end Initiated

theorem Client.Inv.response {h : Handshake ι} {e : Around ι} {msg : Response ι}
    (hc : c.Inv ident i established) (hhs : c.hs = some h) (horder : ResponseInOrder e c msg) :
    ∃ established', Advances ident i c established (processResponse e c h msg) established' ∧
      (established' = established ∨ established' = some msg.signature) := by
  rcases processResponse_cases e c h msg with
    heq | heq | ⟨hsent, peer, mlkem, bp512, _, _, _, hmlkem, hbp512, heq⟩
  · rw [heq]
    exact ⟨established, .refl hc, .inl rfl⟩
  · rw [heq]
    exact ⟨established, hc.fail hhs, .inl rfl⟩
  · rw [heq]
    cases concludeResponse_cases e c h msg peer.signKey mlkem bp512 with
    | inl hstop =>
      obtain ⟨h', outs, heq, hstate, htranscript, houts⟩ := hstop
      rw [heq]
      refine ⟨established, ⟨hc.giveUp hhs .failed hstate (fun hwaits => ?_) ?_, .same rfl rfl rfl, ?_,
        .inl ⟨rfl, ?_⟩⟩, .inl rfl⟩
      · exact nomatch hsent.symm.trans hwaits
      · exact htranscript.imp_left .inl
      · intro signature hin
        rcases houts with rfl | rfl <;> simp [Client.fail] at hin
      · rcases houts with rfl | rfl <;> simp [Client.fail, Output.Plain]
    | inr hverified =>
      obtain ⟨c', hsig, hkeys, hends⟩ := hverified
      obtain ⟨rfl, t, k, hcon⟩ := hc.concludes hhs hsent hmlkem hbp512 horder hsig hkeys
      have hready := hcon.unready.ready
      cases hends with
      | inl hfails =>
        obtain ⟨h', outs, heq, hfreed, hends⟩ := hfails
        have hstate : h'.state ≠ .idle ∧ h'.state ≠ .waitConfirm := by
          rcases hends with ⟨heq, _⟩ | ⟨heq, _⟩
          · rw [heq, hsent]
            exact ⟨(fun heq => nomatch heq), fun heq => nomatch heq⟩
          · rw [heq]
            exact ⟨(fun heq => nomatch heq), fun heq => nomatch heq⟩
        have hclosed : ∀ h₁, some h' = some h₁ →
            h₁.state ≠ .idle ∧ h₁.state ≠ .waitConfirm ∧ h₁.transcript = none := by
          intro h₁ heq
          cases heq
          exact ⟨hstate.1, hstate.2, hfreed⟩
        rw [heq]
        refine ⟨none, ⟨hcon.inv hclosed (fun _ hnone => nomatch hnone) (fun hnone => nomatch hnone),
          .unready hready, ?_, .inl ⟨rfl, ?_⟩⟩, .inl rfl⟩
        · intro signature hin
          rcases hends with ⟨_, rfl⟩ | ⟨_, rfl⟩
          · simp [Client.fail] at hin
          · obtain rfl : signature = _ := by simpa [Client.fail] using hin
            have hsigned := hcon.signedBy
            rw [identity_deriveKeys hkeys] at hsigned
            exact hsigned
        · rcases hends with ⟨_, rfl⟩ | ⟨_, rfl⟩ <;> simp [Client.fail, Output.Plain]
      | inr heq =>
        rw [heq]
        refine ⟨some msg.signature, ⟨hcon.inv (fun _ hnone => nomatch hnone) (fun signature heq => ?_)
          (fun _ hnone => nomatch hnone), .unready hready, ?_, .inr ⟨_, rfl, ?_⟩⟩, .inr rfl⟩
        · cases heq
          rw [hsig]
          exact hcon.digest
        · intro signature hin
          obtain rfl : signature = _ := by simpa using hin
          exact hcon.signedBy
        · rw [hsig]
          exact .response _ _

theorem Client.Inv.confirm {h : Handshake ι} {e : Around ι} {msg : Confirm ι}
    (hc : c.Inv ident i established) (hhs : c.hs = some h) :
    ∃ established', Advances ident i c established (processConfirm e c h msg) established' ∧
      (established' = established ∨ established' = some msg.signature) := by
  rcases processConfirm_cases e c h msg with heq | heq | ⟨hwaits, peer, _, _, hsig, heq⟩
  · rw [heq]
    exact ⟨established, .refl hc, .inl rfl⟩
  · rw [heq]
    exact ⟨established, hc.fail hhs, .inl rfl⟩
  · rw [heq]
    refine ⟨some msg.signature, ⟨⟨hc.self, hc.identity, ?_⟩, .same rfl rfl rfl, ?_,
      .inr ⟨_, rfl, .confirm⟩⟩, .inr rfl⟩
    · cases hc.phase with
      | inl hunkeyed =>
        obtain ⟨hu, _⟩ := hunkeyed
        obtain ⟨h₀, hh₀, hwait, _⟩ := hu.handshake
        cases hhs.symm.trans hh₀
        exact absurd hwaits hwait
      | inr hkeyed =>
        obtain ⟨t, k, hk, _⟩ := hkeyed
        refine .inr ⟨t, k, ⟨⟨hk.derived.ready, hk.derived.send, hk.derived.recv⟩, hk.root, hk.part,
          (fun _ hnone => nomatch hnone), fun _ hnone => nomatch hnone⟩, ?_, fun _ hnone => nomatch hnone⟩
        intro signature heq
        cases heq
        rw [hsig]
        exact hk.waiting h hhs hwaits
    · intro signature hin
      simp at hin

omit [DecidableEq ι] in
theorem unready_dialed {h : Handshake ι} {own : Hello ι} (hready : c.transportKeyReady = false)
    (hsend : c.sendSubkeys = .zero) (hhs : c.hs = some h) (hstate : h.state = .helloSent)
    (hrole : c.isInitiator = true) (hown : ∃ n, own.mlkemPk = .honest i n)
    (hmlkem : h.mlkem = some own.mlkemPk) (hbp512 : h.bp512 = some own.bp512Pk)
    (hfrodo : h.frodo = own.frodoPk)
    (hchunks : ∀ chunks, h.transcript = some chunks → chunks = [.hello own]) : c.Unready i := by
  obtain ⟨n, hown⟩ := hown
  refine ⟨hready, hsend, h, hhs, ?_, fun chunks hin => .inr ⟨hstate, hrole, own, n,
    hchunks chunks hin, hown, hmlkem, hbp512, hfrodo⟩⟩
  rw [hstate]
  exact fun heq => nomatch heq

theorem Client.Inv.connect (hc : c.Inv ident i established) (horder : DialedOnce c) (e : Around ι)
    (peerId : PeerId) : Advances ident i c established (workerConnect e c peerId) established := by
  unfold workerConnect
  split
  · exact .refl hc
  · next hstate =>
    obtain ⟨h, hhs⟩ := Option.ne_none_iff_exists'.mp fun hnone => hstate (horder hnone)
    rw [hhs, Option.getD_some]
    dsimp only
    split
    · split
      · exact ⟨hc.giveUp hhs .handshaking rfl (fun _ => rfl) (.inr ⟨rfl, rfl, rfl, rfl⟩),
          .same rfl rfl rfl, by simp [setState], .inl ⟨rfl, by simp [setState, Output.Plain]⟩⟩
      · exact ⟨hc.giveUp hhs c.state rfl (fun _ => rfl) (.inr ⟨rfl, rfl, rfl, rfl⟩),
          .same rfl rfl rfl, (fun _ hin => nomatch hin), .inl ⟨rfl, fun _ hin => nomatch hin⟩⟩
    · next hidle =>
      cases hc.phase with
      | inr hkeyed =>
        obtain ⟨_, _, hk, _⟩ := hkeyed
        exact absurd (not_not.mp hidle) (hk.closed h hhs).1
      | inl hunkeyed =>
        obtain ⟨hu, rfl⟩ := hunkeyed
        obtain ⟨h₀, hh₀, hwait, hopen⟩ := hu.handshake
        cases hhs.symm.trans hh₀
        have hempty : ∀ chunks, h.transcript = some chunks → chunks = [] := by
          intro chunks hchunks
          cases hopen chunks hchunks with
          | inl hnil => exact hnil
          | inr hsent => exact nomatch (not_not.mp hidle).symm.trans hsent.1
        have hfed (own : Hello ι) : ∀ chunks, feed h.transcript [.hello own] = some chunks →
            chunks = [.hello own] := by
          intro chunks hchunks
          obtain ⟨old, hold, rfl⟩ := Option.map_eq_some_iff.mp hchunks
          rw [hempty old hold]
          rfl
        split
        · refine ⟨⟨hc.self, hc.identity, .inl ⟨?_, rfl⟩⟩, .unready hu.ready, by simp [Client.fail],
            .inl ⟨rfl, by simp [Client.fail, Output.Plain]⟩⟩
          refine hu.renew rfl rfl rfl ?_ hempty
          exact hwait
        · split
          · refine ⟨⟨hc.self, hc.identity, .inl ⟨?_, rfl⟩⟩, .unready hu.ready, by simp [Client.fail],
              .inl ⟨rfl, by simp [Client.fail, Output.Plain]⟩⟩
            refine unready_dialed hu.ready hu.send rfl rfl rfl ?_ rfl rfl rfl (hfed _)
            exact ⟨c.drawn, congrArg (Name.honest · c.drawn) hc.self⟩
          · refine ⟨⟨hc.self, hc.identity, .inl ⟨?_, rfl⟩⟩, .unready hu.ready, by simp,
              .inl ⟨rfl, by simp [Output.Plain]⟩⟩
            refine unready_dialed hu.ready hu.send rfl rfl rfl ?_ rfl rfl rfl (hfed _)
            exact ⟨c.drawn, congrArg (Name.honest · c.drawn) hc.self⟩

theorem Client.Inv.message {e : Around ι} {msg : Message ι} (hc : c.Inv ident i established)
    (horder : MessageInOrder e c msg) :
    ∃ established', Advances ident i c established (processHandshakeMsg e c msg) established' ∧
      (established' = established ∨ established' = msg.signature?) := by
  unfold processHandshakeMsg
  cases hhs : c.hs with
  | none => exact ⟨established, .refl hc, .inl rfl⟩
  | some h =>
    cases msg with
    | hello msg => exact ⟨established, hc.hello hhs horder, .inl rfl⟩
    | response msg => exact hc.response hhs horder
    | confirm msg => exact hc.confirm hhs

end Steps

end YumiBrowser.Sudp

import YumiBrowser.Network.Continuation
import YumiBrowser.Network.KeyChoice

namespace YumiBrowser.Sudp

open Wire Ideal Transition
open YumiBrowser.Group (Registrar Identity PeerId PublicKey)

variable {ι : Type}

section Answers

variable (e : Around ι) (c : Client ι) (h : Handshake ι) (msg : Hello ι)

/-- The calls `sudp_process_hello` makes on the way to its signature all succeed. -/
structure Signs : Prop where
  mlkem : e.fails .mlkem = false
  bp512 : e.fails .bp512 = false
  frodo : msg.firstContact ≠ 0 → e.fails .frodo = false
  sign : e.fails .sign = false

/-- A HELLO that `sudp_process_hello` answers with its signature. -/
structure Answers : Prop where
  heeded : Heeded e c h msg
  signs : Signs e msg

def helloSig : Sig ι :=
  ⟨c.identity.publicKey, finalHash (feed h.transcript (answered c msg).chunks) e.noise⟩

variable {e msg}

theorem respond_signs (hs : Signs e msg) :
    .signed (helloSig e c h msg) ∈ (respond e c h msg).2 ∧
      ∀ signature, .signed signature ∈ (respond e c h msg).2 → signature = helloSig e c h msg := by
  unfold respond helloSig
  simp only [answered_frodoCt]
  rw [if_neg (by simp [hs.mlkem]), if_neg (by simp [hs.bp512]),
    if_neg (fun hf => by simpa [hs.frodo (of_decide_eq_true hf.1)] using hf.2),
    if_neg (by simp [hs.sign])]
  split
  · simp [Client.fail, answered, Transcript.chunks, encaps]
  · split
    · simp [Client.fail, answered, Transcript.chunks, encaps]
    · simp [answered, Transcript.chunks, encaps]

theorem respond_unsigned (hs : ¬ Signs e msg) :
    ∃ h', respond e c h msg = Client.fail { c with drawn := c.drawn + 3 } h' [] ∧
      (h'.transcript = h.transcript ∨ h'.transcript = none) ∧
      h'.transcriptHash = h.transcriptHash := by
  unfold respond
  dsimp only
  split
  · exact ⟨_, rfl, .inl rfl, rfl⟩
  · next hmlkem =>
    split
    · exact ⟨_, rfl, .inl rfl, rfl⟩
    · next hbp512 =>
      split
      · exact ⟨_, rfl, .inl rfl, rfl⟩
      · next hfrodo =>
        split
        · exact ⟨_, rfl, .inr rfl, rfl⟩
        · next hsign =>
          refine absurd ⟨?_, ?_, ?_, ?_⟩ hs
          · simpa using hmlkem
          · simpa using hbp512
          · simpa using hfrodo
          · simpa using hsign

variable (e msg)

theorem message_respond (hm : .message m ∈ (respond e c h msg).2) :
    m = .response ⟨protocolVersion, c.identity.peerId, (answered c msg).mlkemCt,
      (answered c msg).bp512Pk, (answered c msg).frodoCt, helloSig e c h msg⟩ := by
  revert hm
  unfold respond helloSig
  simp only [answered_frodoCt]
  split
  · simp [Client.fail]
  · split
    · simp [Client.fail]
    · split
      · simp [Client.fail]
      · split
        · simp [Client.fail]
        · split
          · simp [Client.fail]
          · next c' hkeys =>
            split
            · simp [Client.fail]
            · simp [answered, Transcript.chunks, encaps, identity_deriveKeys hkeys]

variable {e c h msg}

theorem processHello_of_answers (ha : Answers e c h msg) :
    processHello e c h msg = respond e (becomeResponder e c msg)
      { h.yield with peerId := msg.peerId, firstContact := msg.firstContact ≠ 0 } msg := by
  cases processHello_cases e c h msg with
  | inl hdropped => exact absurd ha.heeded hdropped.1
  | inr hheeded => exact hheeded.2

theorem processHello_of_not_answers (ha : ¬ Answers e c h msg) :
    (processHello e c h msg = (c, []) ∨ processHello e c h msg = ({ c with hs := some h.yield }, [])) ∨
    ∃ h', processHello e c h msg =
        Client.fail { becomeResponder e c msg with drawn := c.drawn + 3 } h' [] ∧
      (h'.transcript = h.yield.transcript ∨ h'.transcript = none) ∧
      h'.transcriptHash = h.yield.transcriptHash := by
  cases processHello_cases e c h msg with
  | inl hdropped => exact .inl hdropped.2
  | inr hheeded =>
    have hsigns : ¬ Signs e msg := fun hs => ha ⟨hheeded.1, hs⟩
    rw [hheeded.2]
    exact .inr (respond_unsigned _ _ hsigns)

end Answers

section Contexts

def Handshake.Unfed (h : Handshake ι) : Prop :=
  ∀ chunks, h.transcript = some chunks → h.state = .helloSent ∨ h.state = .idle ∧ chunks = []

def Client.Unfed (c : Client ι) : Prop := ∀ h, c.hs = some h → h.Unfed

theorem Handshake.Unfed.client {c : Client ι} {h : Handshake ι} (hh : h.Unfed)
    (hhs : c.hs = some h) : c.Unfed := by
  intro h' heq
  cases hhs.symm.trans heq
  exact hh

theorem Handshake.Unfed.freed {h : Handshake ι} (hfreed : h.transcript = none) : h.Unfed :=
  fun _ hchunks => nomatch hfreed.symm.trans hchunks

theorem Handshake.Unfed.kept {h h' : Handshake ι} (hh : h.Unfed) (hstate : h'.state = h.state)
    (htranscript : h'.transcript = h.transcript ∨ h'.transcript = none) : h'.Unfed := by
  cases htranscript with
  | inl heq =>
    intro chunks hchunks
    rw [hstate]
    exact hh chunks (heq.symm.trans hchunks)
  | inr hfreed => exact .freed hfreed

theorem Handshake.Unfed.yield {h : Handshake ι} (hh : h.Unfed) : h.yield.Unfed := by
  unfold Handshake.yield
  split
  · next hstate => exact fun _ _ => .inl hstate
  · exact hh

theorem Handshake.Unfed.fresh {h : Handshake ι} (hh : h.Unfed)
    (hin : h.state = .helloSent ∨ h.transcript ≠ none) :
    h.yield.transcript = some [] ∧ (h.state = .helloSent ∨ h.state = .idle) := by
  have hsent (hstate : h.state = .helloSent) : h.yield.transcript = some [] := by
    rw [Handshake.yield, if_pos hstate]
  cases hin with
  | inl hstate => exact ⟨hsent hstate, .inl hstate⟩
  | inr hkept =>
    obtain ⟨chunks, hchunks⟩ := Option.ne_none_iff_exists'.mp hkept
    cases hh chunks hchunks with
    | inl hstate => exact ⟨hsent hstate, .inl hstate⟩
    | inr hidle =>
      have hstays : h.yield = h := by
        rw [Handshake.yield, if_neg]
        rw [hidle.1]
        exact fun heq => nomatch heq
      rw [hstays, hchunks, hidle.2]
      exact ⟨rfl, .inr hidle.1⟩

theorem unfed_workerConnect (e : Around ι) {c : Client ι} (peerId : PeerId) (hc : c.Unfed) :
    (workerConnect e c peerId).1.Unfed := by
  have hctx : (c.hs.getD (hsCtxCreate c.firstContact)).Unfed := by
    cases hhs : c.hs with
    | none =>
      intro chunks hchunks
      cases hchunks
      exact .inr ⟨rfl, rfl⟩
    | some h => exact hc h hhs
  unfold workerConnect
  split
  · exact hc
  · dsimp only
    split
    · split <;> exact hctx.client rfl
    · split
      · refine Handshake.Unfed.client ?_ rfl
        exact hctx.kept rfl (.inl rfl)
      · split <;> exact Handshake.Unfed.client (fun _ _ => .inl rfl) rfl

theorem unfed_respond (e : Around ι) (c : Client ι) {h : Handshake ι} (msg : Hello ι) (hh : h.Unfed) :
    (respond e c h msg).1.Unfed := by
  cases respond_cases e c h msg with
  | inl hstop =>
    obtain ⟨h', outs, heq, hstate, htranscript, _⟩ := hstop
    rw [heq]
    exact (hh.kept hstate htranscript).client rfl
  | inr hkeys =>
    obtain ⟨c', h', response, _, _, hfreed, _, _, _, heq⟩ := hkeys
    cases heq with
    | inl heq =>
      rw [heq]
      exact (Handshake.Unfed.freed hfreed).client rfl
    | inr heq =>
      rw [heq]
      exact (Handshake.Unfed.freed hfreed).client rfl

variable [DecidableEq ι]

theorem unfed_concludeResponse (e : Around ι) (c : Client ι) {h : Handshake ι} (msg : Response ι)
    (signKey : PublicKey) (mlkem bp512 : Name ι) (hh : h.Unfed) :
    (concludeResponse e c h msg signKey mlkem bp512).1.Unfed := by
  cases concludeResponse_cases e c h msg signKey mlkem bp512 with
  | inl hstop =>
    obtain ⟨h', outs, heq, hstate, htranscript, _⟩ := hstop
    rw [heq]
    exact (hh.kept hstate (htranscript.symm.imp_left And.left)).client rfl
  | inr hkeys =>
    obtain ⟨c', _, _, heq⟩ := hkeys
    cases heq with
    | inl heq =>
      obtain ⟨h', outs, heq, hfreed, _⟩ := heq
      rw [heq]
      exact (Handshake.Unfed.freed hfreed).client rfl
    | inr heq =>
      rw [heq]
      exact fun _ hnone => nomatch hnone

theorem unfed_processHandshakeMsg (e : Around ι) {c : Client ι} (msg : Message ι) (hc : c.Unfed) :
    (processHandshakeMsg e c msg).1.Unfed := by
  unfold processHandshakeMsg
  cases hhs : c.hs with
  | none => exact hc
  | some h =>
    have hh := hc h hhs
    cases msg with
    | hello msg =>
      change (processHello e c h msg).1.Unfed
      rcases processHello_cases e c h msg with ⟨_, heq | heq⟩ | ⟨_, heq⟩
      · exact heq ▸ hc
      · rw [heq]
        exact hh.yield.client rfl
      · rw [heq]
        exact unfed_respond e _ msg (hh.yield.kept rfl (.inl rfl))
    | response msg =>
      change (processResponse e c h msg).1.Unfed
      rcases processResponse_cases e c h msg with heq | heq | ⟨_, peer, mlkem, bp512, _, _, _, _, _, heq⟩
      · exact heq ▸ hc
      · rw [heq]
        exact hh.client rfl
      · rw [heq]
        exact unfed_concludeResponse e c msg peer.signKey mlkem bp512 hh
    | confirm msg =>
      change (processConfirm e c h msg).1.Unfed
      rcases processConfirm_cases e c h msg with heq | heq | ⟨_, _, _, _, _, heq⟩
      · exact heq ▸ hc
      · rw [heq]
        exact hh.client rfl
      · rw [heq]
        exact fun _ hnone => nomatch hnone

theorem kept_unfed : Kept (Client.Unfed (ι := ι)) :=
  .of_continues (fun e _ peerId => unfed_workerConnect e peerId)
    (fun e _ msg => unfed_processHandshakeMsg e msg) (fun _ _ hcont hc h hhs => hc h (hcont.hs ▸ hhs))

theorem reachable_unfed {ident : ι → Identity} (h : (sudpSystem ident).Reachable s) (i : ι) :
    (s.client i).Unfed := by
  refine kept_unfed.reachable ?_ h i
  intro i reg firstContact token now c hc
  obtain ⟨_, _, rfl⟩ := Option.map_eq_some_iff.mp hc
  refine Handshake.Unfed.client ?_ rfl
  intro chunks hchunks
  cases hchunks
  exact .inr ⟨rfl, rfl⟩

end Contexts

section OneHello

variable [DecidableEq ι] (e : Around ι) (c : Client ι) (msg : Hello ι)

/-- One HELLO and the RESPONSE to it are all that is signed for, and a session that waits for its
CONFIRM, or is done, has keys and a transcript that no HELLO changes. -/
structure OneHello : Prop where
  signed : ∀ signature, .signed signature ∈ (processHandshakeMsg e c (.hello msg)).2 →
    ∃ t : Transcript ι, t.hello = msg ∧ t.peerId = c.identity.peerId ∧
      signature = ⟨c.identity.publicKey, t.digest⟩ ∧
      ∀ m, .message m ∈ (processHandshakeMsg e c (.hello msg)).2 →
        m = .response ⟨protocolVersion, t.peerId, t.mlkemCt, t.bp512Pk, t.frodoCt, signature⟩
  settled : ∀ h, c.hs = some h → h.state = .waitConfirm ∨ h.state = .done →
    (processHandshakeMsg e c (.hello msg)).1.sendSubkeys = c.sendSubkeys ∧
    (processHandshakeMsg e c (.hello msg)).1.recvSubkeys = c.recvSubkeys ∧
    (processHandshakeMsg e c (.hello msg)).1.rekeySeed = c.rekeySeed ∧
    ∃ h', (processHandshakeMsg e c (.hello msg)).1.hs = some h' ∧
      h'.transcript = h.transcript ∧ h'.transcriptHash = h.transcriptHash

/-- A HELLO is answered only while the context its transcript is fed to still exists. -/
def InTime : Prop :=
  ∀ h, c.hs = some h → Answers e c h msg → h.state = .helloSent ∨ h.transcript ≠ none

variable {e c msg}

theorem oneHello_of_answers {h : Handshake ι} (hprocess : processHandshakeMsg e c (.hello msg) =
    processHello e c h msg) (hhs : c.hs = some h) (ha : Answers e c h msg)
    (hfresh : h.yield.transcript = some []) (hstate : h.state = .helloSent ∨ h.state = .idle) :
    OneHello e c msg where
  signed signature hsig := by
    rw [hprocess, processHello_of_answers ha] at hsig ⊢
    have heq := (respond_signs _ _ ha.signs).2 signature hsig
    refine ⟨answered (becomeResponder e c msg) msg, rfl, rfl, ?_, ?_⟩
    · rw [heq, helloSig]
      simp only [hfresh]
      rfl
    · intro m hm
      rw [message_respond _ _ _ _ hm, heq]
      rfl
  settled h' hhs' hsettled := by
    cases hhs.symm.trans hhs'
    cases hstate with
    | inl hsent => rw [hsent] at hsettled; simp at hsettled
    | inr hidle => rw [hidle] at hsettled; simp at hsettled

theorem oneHello_of_not_answers {h : Handshake ι} (hprocess : processHandshakeMsg e c (.hello msg) =
    processHello e c h msg) (hhs : c.hs = some h) (hh : h.Unfed) (ha : ¬ Answers e c h msg) :
    OneHello e c msg := by
  have hyield (hsettled : h.state = .waitConfirm ∨ h.state = .done) :
      h.yield = h ∧ h.transcript = none := by
    have hstate : h.state ≠ .helloSent ∧ h.state ≠ .idle := by
      cases hsettled with
      | inl hwaits => rw [hwaits]; decide
      | inr hdone => rw [hdone]; decide
    refine ⟨if_neg hstate.1, Option.eq_none_iff_forall_ne_some.mpr fun chunks hchunks => ?_⟩
    cases hh chunks hchunks with
    | inl hsent => exact hstate.1 hsent
    | inr hidle => exact hstate.2 hidle.1
  rcases processHello_of_not_answers ha with (heq | heq) | ⟨h', heq, htranscript, hhash⟩
  · rw [heq] at hprocess
    refine ⟨by simp [hprocess], fun h' hhs' _ => ?_⟩
    rw [hprocess]
    exact ⟨rfl, rfl, rfl, h', hhs', rfl, rfl⟩
  · rw [heq] at hprocess
    refine ⟨by simp [hprocess], fun h' hhs' hsettled => ?_⟩
    cases hhs.symm.trans hhs'
    rw [hprocess]
    exact ⟨rfl, rfl, rfl, h.yield, rfl, by rw [(hyield hsettled).1], by rw [(hyield hsettled).1]⟩
  · rw [heq] at hprocess
    refine ⟨by simp [hprocess, Client.fail], fun h'' hhs' hsettled => ?_⟩
    cases hhs.symm.trans hhs'
    obtain ⟨hstays, hfreed⟩ := hyield hsettled
    rw [hstays] at htranscript hhash
    rw [hprocess]
    refine ⟨rfl, rfl, rfl, h', rfl, ?_, hhash⟩
    cases htranscript with
    | inl hkept => exact hkept
    | inr hnone => rw [hnone, hfreed]

theorem oneHello_of_inTime (hc : c.Unfed) (hin : InTime e c msg) : OneHello e c msg := by
  cases hhs : c.hs with
  | none =>
    have hdrop : processHandshakeMsg e c (.hello msg) = (c, []) := by rw [processHandshakeMsg, hhs]
    exact ⟨by simp [hdrop], by simp [hhs]⟩
  | some h =>
    have hprocess : processHandshakeMsg e c (.hello msg) = processHello e c h msg := by
      rw [processHandshakeMsg, hhs]
    by_cases ha : Answers e c h msg
    · obtain ⟨hfresh, hstate⟩ := (hc h hhs).fresh (hin h hhs ha)
      exact oneHello_of_answers hprocess hhs ha hfresh hstate
    · exact oneHello_of_not_answers hprocess hhs (hc h hhs) ha

theorem inTime_of_oneHello (hone : OneHello e c msg) :
    InTime e c msg ∨ ∃ t : Transcript ι, t.hello = msg ∧ e.noise = t.digest := by
  by_cases hin : InTime e c msg
  · exact .inl hin
  · refine .inr ?_
    simp only [InTime, not_forall, not_or, not_not] at hin
    obtain ⟨h, hhs, ha, hstate, hfreed⟩ := hin
    have hprocess : processHandshakeMsg e c (.hello msg) = processHello e c h msg := by
      rw [processHandshakeMsg, hhs]
    have hsigned := (respond_signs (becomeResponder e c msg)
      { h.yield with peerId := msg.peerId, firstContact := msg.firstContact ≠ 0 } ha.signs).1
    rw [← processHello_of_answers ha, ← hprocess] at hsigned
    obtain ⟨t, hhello, _, heq, _⟩ := hone.signed _ hsigned
    refine ⟨t, hhello, ?_⟩
    have hdigest := congrArg Signature.digest heq
    simp only [helloSig, Handshake.yield, if_neg hstate, hfreed] at hdigest
    exact hdigest

end OneHello

/-- In every step of every run, a HELLO has a handshake to itself exactly when it is answered in
time, unless the buffer for the hash holds the very hash already. -/
theorem one_hello_iff [DecidableEq ι] {ident : ι → Identity} {start s : World ι}
    {steps : List (System.Step (World ι) (Event ι))} (hstart : Starts ident start)
    (hrun : (sudpSystem ident).Walk start steps s) :
    ∀ x ∈ steps, ∀ i msg e, x.event = .handshake i (.hello msg) e →
      (InTime e (x.before.client i) msg → OneHello e (x.before.client i) msg) ∧
      (OneHello e (x.before.client i) msg →
        InTime e (x.before.client i) msg ∨
          ∃ t : Transcript ι, t.hello = msg ∧ e.noise = t.digest) := by
  intro x hx i msg e _
  have hreach := hrun.mem (.init hstart) hx
  exact ⟨oneHello_of_inTime (reachable_unfed hreach i), inTime_of_oneHello⟩

section Replayed

open YumiBrowser.Group (member)

def forgedHello : Hello Bool where
  version := protocolVersion
  peerId := (member 1).peerId
  epochId := 1
  firstContact := 0
  mlkemPk := .adversary 0
  bp512Pk := .adversary 1
  frodoPk := none
  rest := []

def forgedEvent (now : ℕ) : Event Bool := .handshake false (.hello forgedHello) (pairAround now)

theorem forgedEvent_enabled (s : World Bool) (now : ℕ) :
    Enabled pairIdentity s (forgedEvent now) := fun _ hnone => nomatch hnone

def replayedRun : List (Event Bool) := [forgedEvent 1, forgedEvent 2]

theorem replayedRun_walk : (sudpSystem pairIdentity).Walk pairStart
    (System.stepsOf World.next pairStart replayedRun) (replayedRun.foldl World.next pairStart) :=
  System.Walk.run (S := sudpSystem pairIdentity) (fun _ _ he => ⟨he, rfl⟩) replayedRun
    ⟨forgedEvent_enabled _ 1, forgedEvent_enabled _ 2, trivial⟩

def repliedWorld : World Bool := pairStart.next (forgedEvent 1)

theorem replayed_mem : ⟨repliedWorld, forgedEvent 2, repliedWorld.next (forgedEvent 2)⟩ ∈
    System.stepsOf World.next pairStart replayedRun :=
  List.mem_cons_of_mem _ (List.mem_cons_self ..)

theorem one_hello_iff_replayed :
    (InTime (pairAround 2) (repliedWorld.client false) forgedHello →
      OneHello (pairAround 2) (repliedWorld.client false) forgedHello) ∧
    (OneHello (pairAround 2) (repliedWorld.client false) forgedHello →
      InTime (pairAround 2) (repliedWorld.client false) forgedHello ∨
        ∃ t : Transcript Bool, t.hello = forgedHello ∧ (pairAround 2).noise = t.digest) :=
  one_hello_iff pairStart_starts replayedRun_walk _ replayed_mem false forgedHello (pairAround 2) rfl

-- The second copy finds a session that waits for its CONFIRM, and is answered all the same.
theorem replayed_hello_answered :
    ¬ ∀ (ident : Bool → Identity) (start s : World Bool)
      (steps : List (System.Step (World Bool) (Event Bool))), Starts ident start →
      (sudpSystem ident).Walk start steps s → ∀ x ∈ steps, ∀ i msg e,
        x.event = .handshake i (.hello msg) e → OneHello e (x.before.client i) msg := by
  intro hall
  have hone : OneHello (pairAround 2) (repliedWorld.client false) forgedHello :=
    hall _ _ _ _ pairStart_starts replayedRun_walk _ replayed_mem false forgedHello (pairAround 2) rfl
  have hwaits : ∃ h, (repliedWorld.client false).hs = some h ∧ h.state = .waitConfirm := ⟨_, rfl, rfl⟩
  obtain ⟨h, hhs, hstate⟩ := hwaits
  have hseed := (hone.settled h hhs (.inl hstate)).2.2.1
  exact absurd hseed (by decide)

end Replayed

end YumiBrowser.Sudp

import YumiBrowser.Network.SessionTraffic

namespace YumiBrowser.Sudp

open Wire Ideal Transition
open YumiBrowser.Group (Registrar Identity PeerId PublicKey EpochKey epochGetCurrent)

variable {ι : Type}

section Authenticity

variable (ident : ι → Identity)

/-- What a user got from an ESTABLISHED session with another honest user, that one sent to it in the
same session; and the user gets nothing before. -/
def Authentic (s : World ι) (r : Received ι) : Prop :=
  ∃ signature, r.peer = some signature ∧
    (IsHonest ident signature.key → signature.key ≠ (ident r.receiver).publicKey →
      ∃ x ∈ s.sent, (ident x.sender).publicKey = signature.key ∧ x.session = r.session ∧
        x.payload.drop 4 = r.channel :: r.data)

def HandsUp (c : Client ι) (d : Datagram ι) : Prop :=
  (payloadOf d.packet).drop 4 ≠ [] → c.peerActive = true →
    ntohl ((payloadOf d.packet).take 4) = c.epochId → (∀ k, d.key ≠ .epoch k) ∧ c.hs = none

variable [DecidableEq ι]

/-- A step of a run in which every handshake and every session keep to themselves. -/
def Secured (s : World ι) (event : Event ι) : Prop :=
  Orderly s event ∧ ∀ i d reliable, event = .deliver i d reliable → HandsUp (s.client i) d

end Authenticity

section Received

variable [DecidableEq ι] {ident : ι → Identity} {s : World ι}

omit [DecidableEq ι] in
theorem Grows.authentic {t : World ι} {r : Received ι} (h : Grows s t) (hr : Authentic ident s r) :
    Authentic ident t r := by
  obtain ⟨signature, hpeer, hsent⟩ := hr
  refine ⟨signature, hpeer, fun hhonest hother => ?_⟩
  obtain ⟨x, hx, hfacts⟩ := hsent hhonest hother
  exact ⟨x, h.sent x hx, hfacts⟩

theorem World.Inv.authentic (h : s.Inv ident) {d : Datagram ι} (hheld : (i, d) ∈ s.held)
    (hdata : IsData d.packet) (hkey : ∀ k, d.key ≠ .epoch k) (hdone : (s.client i).hs = none)
    (hpayload : (payloadOf d.packet).drop 4 = channel :: data) :
    Authentic ident s ⟨i, (s.client i).root?, s.established i, channel, data⟩ := by
  obtain ⟨hwire, hopened⟩ := h.held (i, d) hheld
  have hopened := hopened.resolve_left fun hepoch => hepoch.elim hkey
  obtain ⟨hready, seed, gen, hgen, hroot⟩ := hopened
  cases (h.client i).phase with
  | inl hunkeyed => exact absurd (hunkeyed.1.ready.symm.trans hready) Bool.false_ne_true
  | inr hkeyed =>
    obtain ⟨t, k, hk, hdigest, hest⟩ := hkeyed
    obtain ⟨signature, hsig⟩ := Option.ne_none_iff_exists'.mp (hest hdone)
    refine ⟨signature, hsig, fun hhonest hother => ?_⟩
    have hsigned := (h.peer i signature hsig).resolve_right (not_not.mpr hhonest)
    obtain ⟨j, hjkey, t', ht', b, hpart⟩ := h.signed signature hsigned
    obtain rfl := Transcript.digest_inj.mp ((hdigest signature hsig).symm.trans ht')
    have hij : i ≠ j := by
      rintro rfl
      exact hother hjkey
    obtain rfl := hk.part.opposite hij hpart
    have hroot := hroot.trans hk.root
    cases h.wire d hwire with
    | inl hknown =>
      rw [hgen] at hknown
      exact absurd (hknown _ hroot) (hk.part.secret hij hpart k k).1
    | inr hsealed =>
      obtain ⟨j', hsealed⟩ := hsealed
      obtain ⟨hready', seed', gen', hgen', hroot'⟩ := hsealed.key
      obtain ⟨rfl, _, hrole⟩ := Key.gen.inj (hgen.symm.trans hgen')
      cases (h.client j').phase with
      | inl hunkeyed => exact absurd (hunkeyed.1.ready.symm.trans hready') Bool.false_ne_true
      | inr hkeyed' =>
        obtain ⟨t', k', hk', _⟩ := hkeyed'
        have hsame : (t'.root k').mlkem = (t.root k).mlkem :=
          congrArg Root.mlkem (Option.some.inj (hk'.root.symm.trans (hroot'.symm.trans hroot)))
        have hpart' := hk'.part
        rw [← hrole] at hpart'
        obtain rfl := (hk.part.secret hij hpart k k').2 t' j' hsame hpart'
        obtain ⟨x, hx, hsender, hdrop⟩ := hsealed.data hdata
        refine ⟨x, hx, hsender ▸ hjkey.symm, ?_, hdrop.trans hpayload⟩
        rw [(h.sent x hx).2, hsender]
        exact hroot'.symm.trans (hroot.trans hk.root.symm)

/-- In a run whose handshakes keep to their steps and whose user data is that of the session, the
user gets what the peer sent in that session, and nothing before the peer signed the handshake. -/
theorem session_authenticity (h : ((sudpSystem ident).restrict Secured).Reachable s) :
    ∀ r ∈ s.received, Authentic ident s r := by
  refine System.Reachable.invariant_under (J := fun s => s.Inv ident ∧ ∀ i, (s.client i).Concluded)
    (I := fun s => ∀ r ∈ s.received, Authentic ident s r) ?_ ?_ ?_ h
  · exact fun s hs => ⟨reachable_inv (hs.restrict_mono fun s event hsecured => hsecured.1),
      reachable_concluded hs.of_restrict⟩
  · intro s hs
    obtain ⟨_, _, _, _, _, _, hnone⟩ := hs
    rw [hnone]
    exact fun _ hin => nomatch hin
  · rintro s event t ⟨hinv, hconcluded⟩ hall ⟨hsecured, hen, rfl⟩
    cases hinv.next hconcluded hen hsecured.1 with
    | inl hextends =>
      rw [hextends.received]
      exact fun r hr => hextends.grows.authentic (hall r hr)
    | inr hhands =>
      obtain ⟨i, d, reliable, r, rfl, hup, heq⟩ := hhands
      obtain ⟨channel, data, hpayload, rfl⟩ := hup.received
      obtain ⟨hkey, hdone⟩ := hsecured.2 i d reliable rfl (by simp [hpayload]) hup.active hup.epoch
      rw [heq]
      intro r hr
      apply (hinv.pass _).2.authentic
      cases hr with
      | head => exact hinv.authentic hen.1 hen.2 hkey hdone hpayload
      | tail _ hr => exact hall r hr

end Received


section Talk

open YumiBrowser.Group (member)

def dialedConfirm : Confirm Bool where
  version := protocolVersion
  signature := ⟨(member 1).publicKey, dialedTranscript.digest⟩

def firstPayload : List Byte := htonl 1 ++ [1, 7]

def firstDatagram : Datagram Bool where
  token := 0
  counter := 0
  key := .gen (.init (dialedTranscript.root (Group.zeroBytes 128))) 0 false
  packet := buildPacket flagReliable 0 0 firstPayload

def responderRoot : Root Bool :=
  { dialedTranscript.root (Group.zeroBytes 128) with bp512 := s(.honest false 1, .honest true 1) }

theorem responderRoot_eq : responderRoot = dialedTranscript.root (Group.zeroBytes 128) :=
  congrArg (fun bp512 => { dialedTranscript.root (Group.zeroBytes 128) with bp512 }) Sym2.eq_swap

def talkRun : List (Event Bool) :=
  [.connect true (member 2).peerId (pairAround 1),
    .handshake false (.hello dialedHello) (pairAround 2),
    .handshake true (.response dialedResponse) (pairAround 3),
    .handshake false (.confirm dialedConfirm) (pairAround 4),
    .send false 1000 1 [7] true,
    .encrypt false flagReliable 0 0 firstPayload (pairAround 5),
    .decrypt true (some firstDatagram) (pairAround 6),
    .deliver true firstDatagram true]

def talkWorld (n : ℕ) : World Bool := (talkRun.take n).foldl World.next pairStart

theorem talk_trace :
    (talkWorld 2).signed = [dialedResponse.signature] ∧
    (talkWorld 3).signed = [dialedConfirm.signature, dialedResponse.signature] ∧
    (talkWorld 5).sent.map (fun x => (x.sender, x.payload)) = [(false, firstPayload)] ∧
    (talkWorld 6).wire = [{ firstDatagram with key := .gen (.init responderRoot) 0 false }] ∧
    (talkWorld 7).held = [(true, firstDatagram)] ∧ ((talkWorld 7).client true).hs = none ∧
    (talkWorld 8).received.map Received.data = [[7]] := by decide +kernel

theorem talk_sent : (talkWorld 5).sent.map (fun x => (x.sender, x.payload)) = [(false, firstPayload)] :=
  talk_trace.2.2.1

theorem talk_wire : (talkWorld 6).wire = [firstDatagram] := by
  rw [talk_trace.2.2.2.1, responderRoot_eq]
  rfl

theorem talk_step {n : ℕ} {event : Event Bool}
    (h : ((sudpSystem pairIdentity).restrict Secured).Reachable (talkWorld n))
    (hevent : talkRun[n]? = some event) (hsecured : Secured (talkWorld n) event)
    (hen : Enabled pairIdentity (talkWorld n) event) :
    ((sudpSystem pairIdentity).restrict Secured).Reachable (talkWorld (n + 1)) := by
  have hnext : talkWorld (n + 1) = (talkWorld n).next event := by
    rw [talkWorld, List.take_add_one, hevent, List.foldl_append]
    rfl
  rw [hnext]
  exact .step h ⟨hsecured, hen, rfl⟩

theorem Secured.other {s : World Bool} {event : Event Bool} (h : Orderly s event)
    (hother : ∀ i d reliable, event ≠ .deliver i d reliable) : Secured s event :=
  ⟨h, fun i d reliable heq => absurd heq (hother i d reliable)⟩

theorem talk_established : ((sudpSystem pairIdentity).restrict Secured).Reachable (talkWorld 4) := by
  have hstart : ((sudpSystem pairIdentity).restrict Secured).Reachable (talkWorld 0) := .init pairStart_starts
  have hdialed := talk_step hstart rfl (.other (fun hnone => nomatch hnone) fun _ _ _ heq => nomatch heq) trivial
  have hhello : MessageInOrder (pairAround 2) ((talkWorld 1).client false) (.hello dialedHello) := by
    intro h hhs _
    have hcontext : ((talkWorld 1).client false).hs = some (hsCtxCreate false) := rfl
    cases hcontext.symm.trans hhs
    exact ⟨rfl, .inr fun hnone => nomatch hnone⟩
  have hanswered := talk_step hdialed rfl (.other hhello fun _ _ _ heq => nomatch heq)
    fun _ hnone => nomatch hnone
  have hresponse : MessageInOrder (pairAround 3) ((talkWorld 2).client true) (.response dialedResponse) := by
    intro h hhs _ _
    have hcontext : ((talkWorld 2).client true).hs = some dialedHandshake := rfl
    cases hcontext.symm.trans hhs
    exact ⟨dialedHello, rfl⟩
  have hconcluded := talk_step hanswered rfl (.other hresponse fun _ _ _ heq => nomatch heq) fun signature hsig => by
    cases hsig
    rw [talk_trace.1]
    exact .inl (List.mem_singleton_self _)
  refine talk_step hconcluded rfl (.other trivial fun _ _ _ heq => nomatch heq) fun signature hsig => ?_
  cases hsig
  rw [talk_trace.2.1]
  exact .inl (List.mem_cons_self ..)

theorem talk_reachable : ((sudpSystem pairIdentity).restrict Secured).Reachable (talkWorld 8) := by
  have hsent := talk_step talk_established rfl (.other trivial fun _ _ _ heq => nomatch heq) trivial
  have hsource : ∃ x ∈ (talkWorld 5).sent, x.sender = false ∧ x.payload = firstPayload := by
    have hmem : (false, firstPayload) ∈ (talkWorld 5).sent.map fun x => (x.sender, x.payload) := by
      rw [talk_sent]
      exact List.mem_singleton_self _
    obtain ⟨x, hx, heq⟩ := List.mem_map.mp hmem
    obtain ⟨hsender, hpayload⟩ := Prod.mk.inj heq
    exact ⟨x, hx, hsender, hpayload⟩
  have hencrypted := talk_step hsent rfl (.other trivial fun _ _ _ heq => nomatch heq)
    ⟨by decide, .inr (.inr hsource)⟩
  have hopened := talk_step hencrypted rfl (.other trivial fun _ _ _ heq => nomatch heq) fun d hd => by
    cases hd
    rw [talk_wire]
    exact List.mem_singleton_self _
  obtain ⟨_, _, _, _, hheld, hdone, _⟩ := talk_trace
  have hup : HandsUp ((talkWorld 7).client true) firstDatagram :=
    fun _ _ _ => ⟨(fun _ hk => nomatch hk), hdone⟩
  have hsecured : Secured (talkWorld 7) (.deliver true firstDatagram true) := by
    refine ⟨trivial, fun i d reliable heq => ?_⟩
    obtain ⟨rfl, rfl, _⟩ := Event.deliver.inj heq
    exact hup
  exact talk_step hopened rfl hsecured ⟨hheld ▸ List.mem_singleton_self _, by decide, by decide⟩

theorem session_authenticity_talk :
    ∃ r ∈ (talkWorld 8).received, r.data = [7] ∧ Authentic pairIdentity (talkWorld 8) r := by
  have hdata : [7] ∈ (talkWorld 8).received.map Received.data := by
    rw [talk_trace.2.2.2.2.2.2]
    exact List.mem_singleton_self _
  obtain ⟨r, hr, hdata⟩ := List.mem_map.mp hdata
  exact ⟨r, hr, hdata, session_authenticity talk_reachable r hr⟩

def groupDatagram : Datagram Bool where
  token := 9
  counter := 0
  key := .epoch (Group.zeroBytes 128)
  packet := buildPacket flagReliable 0 0 firstPayload

def injectedRun : List (Event Bool) :=
  [.connect true (member 2).peerId (pairAround 1), .inject groupDatagram,
    .decrypt true (some groupDatagram) (pairAround 2), .deliver true groupDatagram true]

-- Nobody has signed anything yet when the user gets the data.
theorem group_member_heard : ¬ ∀ (ident : Bool → Identity) (s : World Bool),
    (sudpSystem ident).Reachable s → ∀ r ∈ s.received, Authentic ident s r := by
  intro h
  have hwire : groupDatagram ∈ ((injectedRun.take 2).foldl World.next pairStart).wire :=
    List.mem_cons_self ..
  have htrace : ((injectedRun.take 3).foldl World.next pairStart).held = [(true, groupDatagram)] ∧
      (injectedRun.foldl World.next pairStart).received.map Received.peer = [none] := by decide +kernel
  have hheld : (true, groupDatagram) ∈ ((injectedRun.take 3).foldl World.next pairStart).held := by
    rw [htrace.1]
    exact List.mem_singleton_self _
  have hrun : System.Enables (Enabled pairIdentity) World.next pairStart injectedRun := by
    refine ⟨trivial, trivial, fun d hd => ?_, ⟨hheld, by decide, by decide⟩, trivial⟩
    cases hd
    exact hwire
  have hreach := System.Reachable.run (S := sudpSystem pairIdentity) (fun _ _ he => ⟨he, rfl⟩)
    injectedRun hrun (.init pairStart_starts)
  have hmem : none ∈ (injectedRun.foldl World.next pairStart).received.map Received.peer := by
    rw [htrace.2]
    exact List.mem_singleton_self _
  obtain ⟨r, hr, hnone⟩ := List.mem_map.mp hmem
  obtain ⟨signature, hsome, _⟩ := h pairIdentity _ hreach r hr
  exact nomatch hnone.symm.trans hsome

end Talk

end YumiBrowser.Sudp
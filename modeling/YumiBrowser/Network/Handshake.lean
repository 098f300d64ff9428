import YumiBrowser.Network.SessionRuns

namespace YumiBrowser.Sudp

open Wire Ideal Transition
open YumiBrowser.Group (Registrar Identity PeerId PublicKey EpochKey Epoch epochGetCurrent)

variable {ι : Type}

/-- What both ends of a handshake hash: one HELLO, and the key material of the RESPONSE to it. -/
structure Transcript (ι : Type) where
  hello : Hello ι
  peerId : PeerId
  mlkemCt : Ciphertext ι
  bp512Pk : Name ι
  frodoCt : Option (Ciphertext ι)

namespace Transcript

def chunks (t : Transcript ι) : List (Chunk ι) :=
  [.hello t.hello, .response t.peerId t.mlkemCt t.bp512Pk t.frodoCt]

def digest (t : Transcript ι) : Digest ι := .hash t.chunks

theorem digest_inj {t t' : Transcript ι} : t.digest = t'.digest ↔ t = t' := by
  constructor
  · intro h
    cases t
    cases t'
    simp only [digest, chunks, Digest.hash.injEq, List.cons.injEq, Chunk.hello.injEq,
      Chunk.response.injEq, and_true] at h
    obtain ⟨rfl, rfl, rfl, rfl, rfl⟩ := h
    rfl
  · rintro rfl
    rfl

def root [DecidableEq ι] (t : Transcript ι) (epochKey : EpochKey) : Root ι where
  mlkem := decaps t.hello.mlkemPk t.mlkemCt
  frodo := t.hello.frodoPk.bind fun key => t.frodoCt.map (decaps key)
  bp512 := s(t.hello.bp512Pk, t.bp512Pk)
  epochKey := epochKey

variable (ident : ι → Identity)

def TookPart (t : Transcript ι) (i : ι) : Bool → Prop
  | true => ∃ n, t.hello.mlkemPk = .honest i n
  | false =>
    t.peerId = (ident i).peerId ∧ ∃ n, t.mlkemCt = ⟨t.hello.mlkemPk, .honest i n⟩

variable {ident} {t : Transcript ι} {i j : ι}

theorem TookPart.opposite (hij : i ≠ j) (hi : t.TookPart ident i a) (hj : t.TookPart ident j b) :
    b = !a := by
  cases a with
  | true =>
    cases b with
    | true =>
      obtain ⟨n, hn⟩ := hi
      obtain ⟨m, hm⟩ := hj
      rw [hn] at hm
      exact absurd (Name.honest.inj hm).1 hij
    | false => rfl
  | false =>
    cases b with
    | true => rfl
    | false =>
      obtain ⟨_, n, hn⟩ := hi
      obtain ⟨_, m, hm⟩ := hj
      rw [hn] at hm
      exact absurd (Name.honest.inj (Ciphertext.mk.inj hm).2).1 hij

theorem TookPart.secret [DecidableEq ι] (hij : i ≠ j) (hi : t.TookPart ident i a)
    (hj : t.TookPart ident j b) (k k' : EpochKey) :
    ¬ (t.root k).mlkem.Known ∧
      ∀ (t' : Transcript ι) (j' : ι), (t'.root k').mlkem = (t.root k).mlkem →
        t'.TookPart ident j' b → j' = j := by
  obtain rfl := hi.opposite hij hj
  cases a with
  | true =>
    obtain ⟨n, hn⟩ := hi
    obtain ⟨_, m, hm⟩ := hj
    have hroot : (t.root k).mlkem = .agreed (.honest i n) (.honest j m) := by
      rw [root, hm, hn]
      exact decaps_encaps _ _
    rw [hroot]
    refine ⟨by simp [Shared.Known, Name.Known], ?_⟩
    rintro t' j' heq ⟨_, m', hm'⟩
    have heq : decaps t'.hello.mlkemPk t'.mlkemCt = .agreed (.honest i n) (.honest j m) := heq
    obtain ⟨_, hct⟩ := decaps_eq_agreed.mp heq
    rw [hm'] at hct
    exact (Name.honest.inj (Ciphertext.mk.inj hct).2).1
  | false =>
    obtain ⟨_, n, hn⟩ := hi
    obtain ⟨m, hm⟩ := hj
    have hroot : (t.root k).mlkem = .agreed (.honest j m) (.honest i n) := by
      rw [root, hn, hm]
      exact decaps_encaps _ _
    rw [hroot]
    refine ⟨by simp [Shared.Known, Name.Known], ?_⟩
    rintro t' j' heq ⟨m', hm'⟩
    have heq : decaps t'.hello.mlkemPk t'.mlkemCt = .agreed (.honest j m) (.honest i n) := heq
    obtain ⟨hkey, _⟩ := decaps_eq_agreed.mp heq
    rw [hm'] at hkey
    exact (Name.honest.inj hkey).1

end Transcript

section Cases

variable (e : Around ι) (c : Client ι) (h : Handshake ι)

def answered (msg : Hello ι) : Transcript ι where
  hello := msg
  peerId := c.identity.peerId
  mlkemCt := ⟨msg.mlkemPk, c.draw 0⟩
  bp512Pk := c.draw 1
  frodoCt := if msg.firstContact ≠ 0 then msg.frodoPk.map fun pk => ⟨pk, c.draw 2⟩ else none

theorem identity_deriveKeys {c c' : Client ι} {reg : Registrar} {mlkem : Shared ι}
    {frodo : Option (Shared ι)} {bp512 : Sym2 (Name ι)}
    (hkeys : deriveKeys reg c mlkem frodo bp512 = some c') : c'.identity = c.identity := by
  obtain ⟨_, _, rfl⟩ := Option.map_eq_some_iff.mp hkeys
  rfl

theorem answered_frodoCt (msg : Hello ι) :
    (if decide (msg.firstContact ≠ 0) = true then
      msg.frodoPk.map fun pk => encaps pk (c.draw 2) else none).map Prod.fst =
        (answered c msg).frodoCt := by
  simp only [answered, decide_eq_true_eq]
  split
  · rw [Option.map_map]
    rfl
  · rfl

theorem respond_cases (msg : Hello ι) :
    let digest := finalHash (feed h.transcript (answered c msg).chunks) e.noise
    let signature : Sig ι := ⟨c.identity.publicKey, digest⟩
    (∃ h' outs, respond e c h msg = Client.fail { c with drawn := c.drawn + 3 } h' outs ∧
      h'.state = h.state ∧ (h'.transcript = h.transcript ∨ h'.transcript = none) ∧
      (outs = [] ∨ h'.transcript = none ∧ outs = [.signed signature])) ∨
    ∃ c' h' response, deriveKeys e.reg { c with drawn := c.drawn + 3 }
        (.agreed msg.mlkemPk (c.draw 0))
        (if msg.firstContact ≠ 0 then msg.frodoPk.map fun pk => .agreed pk (c.draw 2) else none)
        s(c.draw 1, msg.bp512Pk) = some c' ∧
      h'.state = .waitConfirm ∧ h'.transcript = none ∧ h'.transcriptHash = digest ∧
      h'.peerId = h.peerId ∧ h'.firstContact = h.firstContact ∧
      (respond e c h msg = c'.fail h' [.signed signature] ∨
        respond e c h msg = ({ c' with hs := some h' }, [.signed signature, .message response])) := by
  intro digest signature
  have hss : (if decide (msg.firstContact ≠ 0) = true then
      msg.frodoPk.map fun pk => encaps pk (c.draw 2) else none).map Prod.snd =
        if msg.firstContact ≠ 0 then msg.frodoPk.map fun pk => .agreed pk (c.draw 2) else none := by
    simp only [decide_eq_true_eq]
    split
    · rw [Option.map_map]
      rfl
    · rfl
  unfold respond
  simp only [answered_frodoCt, hss]
  split
  · exact .inl ⟨h, [], rfl, rfl, .inl rfl, .inl rfl⟩
  · split
    · exact .inl ⟨_, [], rfl, rfl, .inl rfl, .inl rfl⟩
    · split
      · exact .inl ⟨_, [], rfl, rfl, .inl rfl, .inl rfl⟩
      · split
        · exact .inl ⟨_, [], rfl, rfl, .inr rfl, .inl rfl⟩
        · split
          · exact .inl ⟨_, [.signed signature], rfl, rfl, .inr rfl, .inr ⟨rfl, rfl⟩⟩
          · rename_i c' hkeys
            split
            · refine .inr ⟨c', _, .hello msg, hkeys, ?_, ?_, ?_, ?_, ?_, .inl rfl⟩ <;> rfl
            · refine .inr ⟨c', _, _, hkeys, ?_, ?_, ?_, ?_, ?_, .inr rfl⟩ <;> rfl

/-- A HELLO that passes the checks `sudp_process_hello` starts with. -/
structure Heeded (msg : Hello ι) : Prop where
  version : msg.version = protocolVersion
  wins : ¬ (h.state = .helloSent ∧ memcmpLt c.identity.peerId msg.peerId)
  frodoPk : msg.firstContact ≠ 0 → msg.frodoPk ≠ none
  peer : ∃ peer, e.reg.peers.find? msg.peerId = some peer ∧ peer.status = Group.PeerStatus.active

theorem processHello_cases (msg : Hello ι) :
    ¬ Heeded e c h msg ∧ (processHello e c h msg = (c, []) ∨
      processHello e c h msg = ({ c with hs := some h.yield }, [])) ∨
    Heeded e c h msg ∧ processHello e c h msg = respond e (becomeResponder e c msg)
      { h.yield with peerId := msg.peerId, firstContact := msg.firstContact ≠ 0 } msg := by
  unfold processHello
  split
  · next hversion => exact .inl ⟨fun hh => hversion hh.version, .inl rfl⟩
  · next hversion =>
    split
    · next hloses => exact .inl ⟨fun hh => hh.wins hloses, .inl rfl⟩
    · next hwins =>
      split
      · next hfrodo => exact .inl ⟨fun hh => hh.frodoPk hfrodo.1 hfrodo.2, .inr rfl⟩
      · next hfrodo =>
        cases hpeer : e.reg.peers.find? msg.peerId with
        | none =>
          refine .inl ⟨fun hh => ?_, .inr rfl⟩
          obtain ⟨_, hfind, _⟩ := hh.peer
          exact absurd (hpeer.symm.trans hfind) (by simp)
        | some peer =>
          dsimp only
          split
          · next hinactive =>
            refine .inl ⟨fun hh => ?_, .inr rfl⟩
            obtain ⟨peer', hfind, hactive⟩ := hh.peer
            cases hpeer.symm.trans hfind
            exact hinactive hactive
          · next hactive =>
            exact .inr ⟨⟨not_not.mp hversion, hwins, fun hfirst hnone => hfrodo ⟨hfirst, hnone⟩,
              peer, hpeer, not_not.mp hactive⟩, rfl⟩

variable [DecidableEq ι]

def completed (own : Hello ι) (msg : Response ι) : Transcript ι where
  hello := own
  peerId := msg.peerId
  mlkemCt := msg.mlkemCt
  bp512Pk := msg.bp512Pk
  frodoCt := if h.firstContact then msg.frodoCt else none

theorem concludeResponse_cases (msg : Response ι) (signKey : PublicKey) (mlkem bp512 : Name ι) :
    let frodoCt := if h.firstContact then msg.frodoCt else none
    let digest := finalHash
      (feed h.transcript [.response msg.peerId msg.mlkemCt msg.bp512Pk frodoCt]) e.noise
    let verified : Sig ι := ⟨signKey, digest⟩
    let signature : Sig ι := ⟨c.identity.publicKey, digest⟩
    (∃ h' outs, concludeResponse e c h msg signKey mlkem bp512 = c.fail h' outs ∧
      h'.state = h.state ∧ (h'.transcript = none ∨ h'.transcript = h.transcript ∧
        h'.mlkem = h.mlkem ∧ h'.bp512 = h.bp512 ∧ h'.frodo = h.frodo) ∧
      (outs = [] ∨ outs = [.verified verified])) ∨
    ∃ c', msg.signature = verified ∧
      deriveKeys e.reg c (decaps mlkem msg.mlkemCt)
        (h.frodo.bind fun key => frodoCt.map (decaps key)) s(bp512, msg.bp512Pk) = some c' ∧
      ((∃ h' outs, concludeResponse e c h msg signKey mlkem bp512 = c'.fail h' outs ∧
        h'.transcript = none ∧ (h'.state = h.state ∧ outs = [.verified verified] ∨
          h'.state = .done ∧ outs = [.verified verified, .signed signature])) ∨
      concludeResponse e c h msg signKey mlkem bp512 =
        ({ c' with state := .established, hs := none },
          [.verified verified, .signed ⟨c'.identity.publicKey, digest⟩,
            .message (.confirm ⟨protocolVersion, ⟨c'.identity.publicKey, digest⟩⟩),
            .state .established])) := by
  unfold concludeResponse
  dsimp only
  generalize (if h.firstContact = true then msg.frodoCt else none) = frodoCt
  generalize hdigest : finalHash (feed h.transcript
    [Chunk.response msg.peerId msg.mlkemCt msg.bp512Pk frodoCt]) e.noise = digest
  split
  · exact .inl ⟨h, [], rfl, rfl, .inr ⟨rfl, rfl, rfl, rfl⟩, .inl rfl⟩
  · split
    · exact .inl ⟨{ h with transcript := none }, [], rfl, rfl, .inl rfl, .inl rfl⟩
    · rename_i hsig
      have hverified : msg.signature = ⟨signKey, digest⟩ := by
        unfold Response.signatureFor at hsig
        split at hsig
        · exact Option.some.inj (not_not.mp hsig)
        · exact nomatch not_not.mp hsig
      split
      · exact .inl ⟨{ h with transcript := none }, [.verified ⟨signKey, digest⟩], rfl, rfl, .inl rfl,
          .inr rfl⟩
      · rename_i c' hkeys
        refine .inr ⟨c', hverified, hkeys, ?_⟩
        split
        · exact .inl ⟨{ h with transcript := none }, _, rfl, rfl, .inl ⟨rfl, rfl⟩⟩
        · split
          · exact .inl ⟨{ h with transcript := none, state := .done }, _, rfl, rfl,
              .inr ⟨rfl, by rw [identity_deriveKeys hkeys]⟩⟩
          · exact .inr rfl

theorem processResponse_cases (msg : Response ι) :
    processResponse e c h msg = (c, []) ∨ processResponse e c h msg = c.fail h [] ∨
    h.state = .helloSent ∧ ∃ peer mlkem bp512, e.reg.peers.find? msg.peerId = some peer ∧
      peer.status = Group.PeerStatus.active ∧ msg.peerId = h.peerId ∧ h.mlkem = some mlkem ∧
      h.bp512 = some bp512 ∧
      processResponse e c h msg = concludeResponse e c h msg peer.signKey mlkem bp512 := by
  unfold processResponse
  split
  · exact .inl rfl
  · rename_i hstate
    split
    · exact .inl rfl
    · split
      · exact .inl rfl
      · cases hpeer : e.reg.peers.find? msg.peerId with
        | none => exact .inl rfl
        | some peer =>
          dsimp only
          split
          · exact .inl rfl
          · rename_i hactive
            split
            · exact .inl rfl
            · rename_i hid
              split
              · rename_i mlkem bp512 hmlkem hbp512
                exact .inr (.inr ⟨not_not.mp hstate, peer, mlkem, bp512, rfl, not_not.mp hactive,
                  not_not.mp hid, hmlkem, hbp512, rfl⟩)
              · exact .inr (.inl rfl)

theorem processConfirm_cases (msg : Confirm ι) :
    processConfirm e c h msg = (c, []) ∨ processConfirm e c h msg = c.fail h [] ∨
    h.state = .waitConfirm ∧ ∃ peer, e.reg.peers.find? h.peerId = some peer ∧
      peer.status = Group.PeerStatus.active ∧ msg.signature = ⟨peer.signKey, h.transcriptHash⟩ ∧
      processConfirm e c h msg = ({ c with state := .established, hs := none },
        [.verified msg.signature, .state .established]) := by
  unfold processConfirm
  split
  · exact .inl rfl
  · rename_i hstate
    split
    · exact .inl rfl
    · cases hpeer : e.reg.peers.find? h.peerId with
      | none => exact .inr (.inl rfl)
      | some peer =>
        dsimp only
        split
        · exact .inr (.inl rfl)
        · rename_i hactive
          split
          · exact .inr (.inl rfl)
          · rename_i hsig
            exact .inr (.inr ⟨not_not.mp hstate, peer, rfl, not_not.mp hactive, not_not.mp hsig, rfl⟩)

end Cases

end YumiBrowser.Sudp

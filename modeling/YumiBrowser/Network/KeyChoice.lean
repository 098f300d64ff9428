import YumiBrowser.Network.Handshake
import YumiBrowser.Registrar.DeltaAuthorization

namespace YumiBrowser.Sudp

open Wire Ideal Transition
open YumiBrowser.Group (Registrar Identity PeerId Epoch epochGetCurrent)

/-- The datagrams of the inner transport, before they are encrypted. -/
inductive Packet
  | data (reliable : Bool) (channel : BitVec 8) (seq : BitVec 32) (payload : List Byte)
  | ack (channel : BitVec 8) (seq : BitVec 32)
  | sack (channel : BitVec 8) (seq cumulative bitmap : BitVec 32)
  | probe (seq : BitVec 32)
  | probeAck (channel : BitVec 8) (seq : BitVec 32)

namespace Packet

def flags : Packet → BitVec 8
  | data reliable _ _ _ => if reliable then flagReliable else 0
  | ack _ _ | sack _ _ _ _ => flagAck
  | probe _ => flagReliable ||| flagProbe
  | probeAck _ _ => flagAck ||| flagProbe

def channel : Packet → BitVec 8
  | data _ channel _ _ | ack channel _ | sack channel _ _ _ | probeAck channel _ => channel
  | probe _ => 0

def seq : Packet → BitVec 32
  | data _ _ seq _ | ack _ seq | sack _ seq _ _ | probe seq | probeAck _ seq => seq

def payload : Packet → List Byte
  | data _ _ _ payload => payload
  | sack _ _ cumulative bitmap => writeU32 cumulative ++ writeU32 bitmap
  | ack _ _ | probe _ | probeAck _ _ => []

def bytes (p : Packet) : List Byte := buildPacket p.flags p.channel p.seq p.payload

/-- Whether `sudp_pkt_encrypt` takes the packet for one with an epoch in it: a payload of user data
has one, a fragment of the handshake has zero there, and a SACK has its cumulative number there. -/
def Tagged : Packet → Prop
  | data _ _ _ payload => 4 < payload.length ∧ payload.take 4 ≠ [0, 0, 0, 0]
  | sack _ _ cumulative _ => cumulative ≠ 0
  | ack _ _ | probe _ | probeAck _ _ => False

def IsData : Packet → Prop
  | data _ _ _ _ => True
  | ack _ _ | sack _ _ _ _ | probe _ | probeAck _ _ => False

end Packet

section Bytes

theorem length_buildPacket (flags channel : BitVec 8) (seq : BitVec 32) (payload : List Byte) :
    (buildPacket flags channel seq payload).length = udpHdrSize + payload.length := by
  simp only [buildPacket, List.length_cons, List.length_append, length_toLe, udpHdrSize]
  omega

theorem drop_buildPacket (flags channel : BitVec 8) (seq : BitVec 32) (payload : List Byte) :
    (buildPacket flags channel seq payload).drop udpHdrSize = payload := by
  rw [buildPacket, ← List.append_assoc, udpHdrSize, List.drop_succ_cons, List.drop_succ_cons]
  exact List.drop_left' (by rw [List.length_append, length_toLe, length_toLe])

theorem payloadOf_buildPacket {flags channel : BitVec 8} {seq : BitVec 32} {payload : List Byte}
    (h : payload.length < 2 ^ 32) :
    payloadOf (buildPacket flags channel seq payload) = payload := by
  have hrest : (buildPacket flags channel seq payload).drop 6 =
      writeU32 (BitVec.ofNat 32 payload.length) ++ payload := by
    change (writeU32 seq ++ (writeU32 (BitVec.ofNat 32 payload.length) ++ payload)).drop 4 = _
    exact List.drop_left' (length_toLe 4 _)
  have hlen : ofLe (writeU32 (BitVec.ofNat 32 payload.length)) = payload.length := by
    rw [ofLe_toLe, BitVec.toNat_ofNat, Nat.mod_eq_of_lt h]
    exact Nat.mod_eq_of_lt h
  rw [payloadOf, drop_buildPacket, hrest, List.take_left' (length_toLe 4 _), hlen, List.take_length]

theorem patchEpoch_buildPacket {flags channel : BitVec 8} {seq : BitVec 32} {payload : List Byte}
    (h : 4 ≤ payload.length) (id : BitVec 32) :
    patchEpoch (buildPacket flags channel seq payload) id =
      buildPacket flags channel seq (htonl id ++ payload.drop 4) := by
  have hlen : (htonl id ++ payload.drop 4).length = payload.length := by
    rw [List.length_append, htonl, List.length_reverse, length_toLe, List.length_drop]
    omega
  have hhead : ∀ p : List Byte, (buildPacket flags channel seq p).take udpHdrSize =
      flags :: channel :: (writeU32 seq ++ writeU32 (BitVec.ofNat 32 p.length)) := by
    intro p
    rw [buildPacket, ← List.append_assoc, udpHdrSize, List.take_succ_cons, List.take_succ_cons]
    rw [List.take_left' (by rw [List.length_append, length_toLe, length_toLe])]
  rw [patchEpoch, hhead, ← List.drop_drop, drop_buildPacket, buildPacket, hlen]
  simp only [List.cons_append, List.append_assoc]

theorem writeU32_eq_zero {v : BitVec 32} : writeU32 v = [0, 0, 0, 0] ↔ v = 0 := by
  constructor
  · intro h
    have hv : ofLe (writeU32 v) = 0 := by rw [h]; rfl
    rw [ofLe_toLe, Nat.mod_eq_of_lt (show v.toNat < 256 ^ 4 from v.isLt)] at hv
    exact BitVec.eq_of_toNat_eq hv
  · rintro rfl
    rfl

theorem Packet.epochField_bytes (p : Packet) : epochField p.bytes = p.payload.take 4 := by
  rw [epochField, Packet.bytes, drop_buildPacket]

theorem Packet.tagged_iff (p : Packet) :
    p.Tagged ↔ udpHdrSize + 4 < p.bytes.length ∧ epochField p.bytes ≠ [0, 0, 0, 0] := by
  rw [epochField_bytes, bytes, length_buildPacket, Nat.add_lt_add_iff_left]
  cases p with
  | data reliable channel seq payload => exact Iff.rfl
  | sack channel seq cumulative bitmap =>
    have htake : (Packet.sack channel seq cumulative bitmap).payload.take 4 = writeU32 cumulative :=
      List.take_left' (length_toLe 4 _)
    have hlen : (Packet.sack channel seq cumulative bitmap).payload.length = 8 := by
      rw [payload, List.length_append, length_toLe, length_toLe]
    rw [htake, hlen, Tagged, ne_eq, ne_eq, writeU32_eq_zero]
    exact ⟨fun h => ⟨by decide, h⟩, fun h => h.2⟩
  | ack channel seq => exact ⟨False.elim, fun h => absurd h.1 (Nat.not_lt_zero 4)⟩
  | probe seq => exact ⟨False.elim, fun h => absurd h.1 (Nat.not_lt_zero 4)⟩
  | probeAck channel seq => exact ⟨False.elim, fun h => absurd h.1 (Nat.not_lt_zero 4)⟩

theorem patchEpoch_eq_iff {pt : List Byte} (hlen : udpHdrSize + 4 < pt.length) (id : BitVec 32) :
    patchEpoch pt id = pt ↔ htonl id = epochField pt := by
  have hsplit : pt = pt.take udpHdrSize ++ epochField pt ++ pt.drop (udpHdrSize + 4) := by
    rw [epochField, ← List.take_add, List.take_append_drop]
  have hfield : (epochField pt).length = 4 := by
    rw [epochField, List.length_take, List.length_drop]
    omega
  constructor
  · intro h
    have h' : patchEpoch pt id = pt.take udpHdrSize ++ epochField pt ++ pt.drop (udpHdrSize + 4) :=
      h.trans hsplit
    rw [patchEpoch, List.append_assoc, List.append_assoc] at h'
    exact (List.append_inj (List.append_cancel_left h')
      (by rw [hfield, htonl, List.length_reverse, length_toLe])).1
  · intro h
    rw [patchEpoch, h, ← hsplit]

end Bytes

section Keys

variable {ι : Type}

structure Client.Apart (c : Client ι) : Prop where
  epoch : ∃ k, c.epochSubkeys = .epoch k
  send : ∀ k, c.sendSubkeys ≠ .epoch k

theorem apart_deriveKeys {c c' : Client ι} (h : c.Apart)
    (hkeys : deriveKeys reg c mlkem frodo bp512 = some c') : c'.Apart := by
  obtain ⟨epoch, _, rfl⟩ := Option.map_eq_some_iff.mp hkeys
  exact ⟨h.epoch, fun _ hk => nomatch hk⟩

theorem apart_epochRekey (reg : Registrar) (c : Client ι) (epoch : Epoch) :
    (epochRekey reg c epoch).Apart :=
  ⟨⟨epoch.epochKey, rfl⟩, fun _ hk => nomatch hk⟩

theorem Client.Apart.fail {c : Client ι} (hc : c.Apart) (h : Handshake ι) (outs : List (Output ι)) :
    (c.fail h outs).1.Apart := ⟨hc.epoch, hc.send⟩

theorem apart_respond {c : Client ι} (hc : c.Apart) (e : Around ι) (h : Handshake ι) (msg : Hello ι) :
    (respond e c h msg).1.Apart := by
  have hdrawn : ({ c with drawn := c.drawn + 3 } : Client ι).Apart := ⟨hc.epoch, hc.send⟩
  cases respond_cases e c h msg with
  | inl hstop =>
    obtain ⟨h', outs, heq, _⟩ := hstop
    rw [heq]
    exact hdrawn.fail h' outs
  | inr hkeys =>
    obtain ⟨c', h', response, hkeys, _, _, _, _, _, heq⟩ := hkeys
    have hc' := apart_deriveKeys hdrawn hkeys
    cases heq with
    | inl heq =>
      rw [heq]
      exact hc'.fail h' _
    | inr heq =>
      rw [heq]
      exact ⟨hc'.epoch, hc'.send⟩

theorem apart_refreshEpoch {c : Client ι} (hc : c.Apart) (e : Around ι) (pt : List Byte) :
    (refreshEpoch e c pt).1.Apart := by
  unfold refreshEpoch
  split
  · dsimp only
    split
    · split
      · exact apart_epochRekey e.reg _ _
      · exact ⟨hc.epoch, hc.send⟩
    · exact ⟨hc.epoch, hc.send⟩
  · exact hc

theorem apart_sealWith {c : Client ι} (hc : c.Apart) (session : Bool) (pt : List Byte) :
    (sealWith c session pt).1.Apart := by
  unfold sealWith sendRekey
  dsimp only
  split
  · split
    · exact ⟨hc.epoch, fun _ hk => nomatch hk⟩
    · exact ⟨hc.epoch, hc.send⟩
  · exact ⟨hc.epoch, hc.send⟩

variable [DecidableEq ι]

theorem apart_concludeResponse {c : Client ι} (hc : c.Apart) (e : Around ι) (h : Handshake ι)
    (msg : Response ι) (signKey : Group.PublicKey) (mlkem bp512 : Name ι) :
    (concludeResponse e c h msg signKey mlkem bp512).1.Apart := by
  cases concludeResponse_cases e c h msg signKey mlkem bp512 with
  | inl hstop =>
    obtain ⟨h', outs, heq, _⟩ := hstop
    rw [heq]
    exact hc.fail h' outs
  | inr hkeys =>
    obtain ⟨c', _, hkeys, heq⟩ := hkeys
    have hc' := apart_deriveKeys hc hkeys
    cases heq with
    | inl heq =>
      obtain ⟨h', outs, heq, _⟩ := heq
      rw [heq]
      exact hc'.fail h' outs
    | inr heq =>
      rw [heq]
      exact ⟨hc'.epoch, hc'.send⟩

theorem apart_processHandshakeMsg {c : Client ι} (hc : c.Apart) (e : Around ι) (msg : Message ι) :
    (processHandshakeMsg e c msg).1.Apart := by
  unfold processHandshakeMsg
  cases c.hs with
  | none => exact hc
  | some h =>
    cases msg with
    | hello msg =>
      change (processHello e c h msg).1.Apart
      rcases processHello_cases e c h msg with ⟨_, heq | heq⟩ | ⟨_, heq⟩
      · exact heq ▸ hc
      · rw [heq]
        exact ⟨hc.epoch, hc.send⟩
      · rw [heq]
        apply apart_respond
        exact ⟨hc.epoch, hc.send⟩
    | response msg =>
      change (processResponse e c h msg).1.Apart
      rcases processResponse_cases e c h msg with heq | heq | ⟨_, peer, mlkem, bp512, _, _, _, _, _, heq⟩
      · exact heq ▸ hc
      · rw [heq]
        exact hc.fail h []
      · rw [heq]
        exact apart_concludeResponse hc e h msg peer.signKey mlkem bp512
    | confirm msg =>
      change (processConfirm e c h msg).1.Apart
      rcases processConfirm_cases e c h msg with heq | heq | ⟨_, _, _, _, _, heq⟩
      · exact heq ▸ hc
      · rw [heq]
        exact hc.fail h []
      · rw [heq]
        exact ⟨hc.epoch, hc.send⟩

theorem apart_openDatagram {c : Client ι} (hc : c.Apart) (e : Around ι) (d : Datagram ι) :
    (openDatagram e c d).1.Apart := by
  unfold openDatagram
  split
  · rename_i c' hopen
    unfold openSession at hopen
    dsimp only at hopen
    split at hopen
    · cases hopen
    · split at hopen
      · split at hopen
        · cases hopen
          exact ⟨hc.epoch, hc.send⟩
        · cases hopen
      · split at hopen
        · cases hopen
          exact ⟨hc.epoch, hc.send⟩
        · cases hopen
  · split
    · exact ⟨hc.epoch, hc.send⟩
    · split
      · exact hc
      · rename_i epoch _
        have hrekeyed := apart_epochRekey e.reg c epoch
        dsimp only
        split
        · exact ⟨hrekeyed.epoch, hrekeyed.send⟩
        · exact hrekeyed

theorem kept_apart : Kept (Client.Apart (ι := ι)) where
  connect e c peerId hc := by
    unfold workerConnect
    split
    · exact hc
    · dsimp only
      split
      · split <;> exact ⟨hc.epoch, hc.send⟩
      · split
        · exact ⟨hc.epoch, hc.send⟩
        · split <;> exact ⟨hc.epoch, hc.send⟩
  handshake e c msg hc := apart_processHandshakeMsg hc e msg
  send maxPayload c channel data reliable hc := by
    unfold encryptSend
    split
    · exact hc
    · split
      · exact ⟨hc.epoch, hc.send⟩
      · split <;> exact hc
  encrypt e c pt hc := by
    unfold pktEncrypt
    split
    · exact ⟨hc.epoch, hc.send⟩
    · dsimp only
      split
      · exact apart_sealWith (apart_refreshEpoch hc e pt) _ _
      · exact apart_sealWith hc _ _
  decrypt e c d hc := by
    unfold pktDecrypt
    split
    · exact ⟨hc.epoch, hc.send⟩
    · cases d with
      | none => exact hc
      | some d => exact apart_openDatagram hc e d
  deliver c pkt reliable hc := by
    unfold innerRecvData
    split
    · exact hc
    · split
      · exact ⟨hc.epoch, hc.send⟩
      · split <;> exact hc
  kick reg c hc := by
    unfold notifyKick
    split
    · exact hc
    · split
      · exact hc
      · split
        · exact ⟨hc.epoch, hc.send⟩
        · exact hc

theorem reachable_apart {ident : ι → Identity} (h : (sudpSystem ident).Reachable s) (i : ι) :
    (s.client i).Apart := by
  refine kept_apart.reachable ?_ h i
  intro i reg firstContact token now c hc
  obtain ⟨epoch, _, rfl⟩ := Option.map_eq_some_iff.mp hc
  exact ⟨⟨epoch.epochKey, rfl⟩, fun _ hk => nomatch hk⟩

end Keys

section Choice

variable {ι : Type} (e : Around ι) (c : Client ι) (p : Packet)

/-- What the choice of a key has to guarantee, and the only change it may make to the packet. -/
structure ChoosesKey : Prop where
  key : ∀ d, (pktEncrypt e c p.bytes).2 = some d → c.state ≠ .established → d.key = c.epochSubkeys
  plaintext : ∀ d, (pktEncrypt e c p.bytes).2 = some d → d.packet = p.bytes ∨
    p.IsData ∧ ∃ epochId, d.packet = patchEpoch p.bytes epochId

/-- Before the session is ESTABLISHED nothing goes out that is taken for user data, and no SACK
meets a rotation, unless it carries the very bytes of the new epoch. -/
structure Classified : Prop where
  key : c.timedOut e.now = false → c.state ≠ .established → ¬ p.Tagged
  plaintext : c.timedOut e.now = false → p.Tagged → ¬ p.IsData → c.transportKeyReady = true →
    epochCheckIntervalUs ≤ e.now - c.epochCheckLastUs →
    ∀ epoch, epochGetCurrent e.reg = some epoch → epoch.epochId ≠ c.epochId →
      htonl epoch.epochId = epochField p.bytes

variable {e c p}

theorem usesSendSubkeys_of_tagged (h : p.Tagged) : usesSendSubkeys c p.bytes = true := by
  obtain ⟨hlen, hfield⟩ := p.tagged_iff.mp h
  rw [usesSendSubkeys, if_pos hlen]
  exact decide_eq_true hfield

theorem usesSendSubkeys_of_not_tagged (h : ¬ p.Tagged) (hstate : c.state ≠ .established) :
    usesSendSubkeys c p.bytes = false := by
  unfold usesSendSubkeys
  split
  · rename_i hlen
    exact decide_eq_false fun hfield => h (p.tagged_iff.mpr ⟨hlen, hfield⟩)
  · exact decide_eq_false fun hest => hstate hest.1

theorem not_session_of_not_tagged (h : ¬ p.Tagged) :
    ¬ (udpHdrSize + 4 < p.bytes.length ∧ usesSendSubkeys c p.bytes = true) := by
  rintro ⟨hlen, hsession⟩
  rw [usesSendSubkeys, if_pos hlen] at hsession
  exact h (p.tagged_iff.mpr ⟨hlen, of_decide_eq_true hsession⟩)

theorem pktEncrypt_tagged (hin : c.timedOut e.now = false) (h : p.Tagged) :
    pktEncrypt e c p.bytes =
      let refreshed := refreshEpoch e c p.bytes
      let sealed := sealWith refreshed.1 true refreshed.2
      ((sealed.1, []), some sealed.2) := by
  have hlen := (p.tagged_iff.mp h).1
  have hsession := usesSendSubkeys_of_tagged (c := c) h
  simp only [pktEncrypt, hin, hsession, hlen, Bool.false_eq_true, ↓reduceIte, and_self]

theorem pktEncrypt_not_tagged (hin : c.timedOut e.now = false) (h : ¬ p.Tagged) :
    pktEncrypt e c p.bytes =
      let sealed := sealWith c (usesSendSubkeys c p.bytes) p.bytes
      ((sealed.1, []), some sealed.2) := by
  simp only [pktEncrypt, hin, Bool.false_eq_true, ↓reduceIte, if_neg (not_session_of_not_tagged h)]

theorem sealWith_session_ne {k : Group.EpochKey} (hc : c.Apart) (pt : List Byte) :
    (sealWith c true pt).2.key ≠ .epoch k := (apart_sealWith hc true pt).send k

theorem refreshEpoch_packet (pt : List Byte) :
    (refreshEpoch e c pt).2 = pt ∨ ∃ epoch, c.transportKeyReady = true ∧
      epochCheckIntervalUs ≤ e.now - c.epochCheckLastUs ∧ epochGetCurrent e.reg = some epoch ∧
      epoch.epochId ≠ c.epochId ∧ (refreshEpoch e c pt).2 = patchEpoch pt epoch.epochId := by
  unfold refreshEpoch
  split
  · rename_i hdue
    cases hepoch : epochGetCurrent e.reg with
    | none => exact .inl rfl
    | some epoch =>
      dsimp only
      split
      · rename_i hne
        exact .inr ⟨epoch, hdue.1, hdue.2, rfl, hne, rfl⟩
      · exact .inl rfl
  · exact .inl rfl

theorem packet_pktEncrypt {pt : List Byte} (h : (pktEncrypt e c pt).2 = some d) :
    d.packet = pt ∨ udpHdrSize + 4 < pt.length ∧ epochField pt ≠ [0, 0, 0, 0] ∧
      ∃ id, d.packet = patchEpoch pt id := by
  unfold pktEncrypt at h
  split at h
  · cases h
  · dsimp only at h
    obtain rfl := Option.some.inj h
    split
    · next hsession =>
      rcases refreshEpoch_packet (e := e) (c := c) pt with heq | ⟨epoch, _, _, _, _, heq⟩
      · exact .inl heq
      · have hfield := hsession.2
        rw [usesSendSubkeys, if_pos hsession.1, decide_eq_true_eq] at hfield
        exact .inr ⟨hsession.1, hfield, epoch.epochId, heq⟩
    · exact .inl rfl

theorem drop_payloadOf_stamped {flags channel : BitVec 8} {seq id : BitVec 32} {payload : List Byte}
    (hlen : payload.length < 2 ^ 32) (hfit : 4 ≤ payload.length) :
    (payloadOf (buildPacket flags channel seq (htonl id ++ payload.drop 4))).drop 4 = payload.drop 4 := by
  have hid : (htonl id).length = 4 := by rw [htonl, List.length_reverse, length_toLe]
  have hstamped : (htonl id ++ payload.drop 4).length < 2 ^ 32 := by
    rw [List.length_append, hid, List.length_drop]
    omega
  rw [payloadOf_buildPacket hstamped, List.drop_left' hid]

theorem isData_pktEncrypt {flags channel : BitVec 8} {seq : BitVec 32} {payload : List Byte}
    (hlen : payload.length < 2 ^ 32)
    (h : (pktEncrypt e c (buildPacket flags channel seq payload)).2 = some d)
    (hdata : Sudp.IsData d.packet) : isControl flags = false ∧ payload.take 4 ≠ [0, 0, 0, 0] ∧
      (payloadOf d.packet).drop 4 = payload.drop 4 := by
  rcases packet_pktEncrypt h with heq | ⟨hlong, hfield, id, heq⟩
  · rw [heq] at hdata ⊢
    rw [Sudp.IsData, payloadOf_buildPacket hlen] at hdata
    rw [payloadOf_buildPacket hlen]
    exact ⟨hdata.1, hdata.2, rfl⟩
  · rw [length_buildPacket] at hlong
    have hfit : 4 ≤ payload.length := by omega
    rw [epochField, drop_buildPacket] at hfield
    rw [heq, patchEpoch_buildPacket hfit] at hdata ⊢
    exact ⟨hdata.1, hfield, drop_payloadOf_stamped hlen hfit⟩

theorem pktDecrypt_packet [DecidableEq ι] {d : Datagram ι} (h : (pktDecrypt e c (some d)).2 = some pt) :
    pt = d.packet := by
  have haccept : ∀ c : Client ι, (accept c d).2 = some pt → pt = d.packet := by
    intro c hc
    unfold accept at hc
    dsimp only at hc
    split at hc
    · exact (Option.some.inj hc).symm
    · cases hc
  unfold pktDecrypt at h
  split at h
  · cases h
  · change (openDatagram e c d).2 = some pt at h
    unfold openDatagram at h
    split at h
    · exact haccept _ h
    · split at h
      · exact haccept _ h
      · split at h
        · cases h
        · dsimp only at h
          split at h
          · exact haccept _ h
          · cases h

theorem choosesKey_of_timedOut (h : c.timedOut e.now = true) : ChoosesKey e c p := by
  constructor <;> intro d hd <;> rw [pktEncrypt, if_pos h] at hd <;> cases hd

theorem choosesKey_of_classified (h : Classified e c p) : ChoosesKey e c p := by
  cases hout : c.timedOut e.now with
  | true => exact choosesKey_of_timedOut hout
  | false =>
    constructor
    · intro d hd hstate
      have htag := h.key hout hstate
      rw [pktEncrypt_not_tagged hout htag, usesSendSubkeys_of_not_tagged htag hstate] at hd
      obtain rfl := Option.some.inj hd
      rfl
    · intro d hd
      by_cases htag : p.Tagged
      · rw [pktEncrypt_tagged hout htag] at hd
        obtain rfl := Option.some.inj hd
        rcases refreshEpoch_packet (e := e) (c := c) p.bytes with heq | ⟨epoch, hready, hdue, hcur, hne, heq⟩
        · exact .inl heq
        · by_cases hdata : p.IsData
          · exact .inr ⟨hdata, epoch.epochId, heq⟩
          · have hsame := h.plaintext hout htag hdata hready hdue epoch hcur hne
            exact .inl (heq.trans ((patchEpoch_eq_iff (p.tagged_iff.mp htag).1 _).mpr hsame))
      · rw [pktEncrypt_not_tagged hout htag] at hd
        obtain rfl := Option.some.inj hd
        exact .inl rfl

theorem classified_of_choosesKey (hc : c.Apart) (h : ChoosesKey e c p) : Classified e c p := by
  constructor
  · intro hout hstate htag
    have hkey := h.key _ (congrArg Prod.snd (pktEncrypt_tagged hout htag)) hstate
    obtain ⟨k, hk⟩ := hc.epoch
    rw [hk] at hkey
    exact sealWith_session_ne (apart_refreshEpoch hc e p.bytes) _ hkey
  · intro hout htag hdata hready hdue epoch hcur hne
    have hpt : (refreshEpoch e c p.bytes).2 = patchEpoch p.bytes epoch.epochId := by
      simp only [refreshEpoch, hready, hdue, hcur, hne, and_self, ↓reduceIte, ne_eq, not_false_eq_true]
      rfl
    rcases h.plaintext _ (congrArg Prod.snd (pktEncrypt_tagged hout htag)) with heq | ⟨hd, _⟩
    · exact (patchEpoch_eq_iff (p.tagged_iff.mp htag).1 _).mp (hpt.symm.trans heq)
    · exact absurd hd hdata

/-- In every state of every run, the session picks the right key for a packet of the transport and
leaves the packet alone exactly when it can tell user data from a SACK. -/
theorem choosesKey_iff_classified [DecidableEq ι] {ident : ι → Identity} {s : World ι}
    (h : (sudpSystem ident).Reachable s) (i : ι) (e : Around ι) (p : Packet) :
    ChoosesKey e (s.client i) p ↔ Classified e (s.client i) p :=
  ⟨classified_of_choosesKey (reachable_apart h i), choosesKey_of_classified⟩

end Choice

section Handshaking

open YumiBrowser.Group (member flatHash onlySigner pairGroup)

def pairIdentity (i : Bool) : Identity := member (if i then 1 else 2)

def pairRegistrar : Registrar := pairGroup (onlySigner flatHash (member 1))

def pairAround (now : ℕ) : Around Bool := ⟨pairRegistrar, now, fun _ => false, .other 0⟩

def pairClient (i : Bool) : Client Bool :=
  (create i pairRegistrar (pairIdentity i) false 0 0).get rfl

def pairStart : World Bool where
  client := pairClient
  verified _ := none
  established _ := none
  signed := []
  wire := []
  held := []
  sent := []
  received := []

theorem pairStart_starts : Starts pairIdentity pairStart :=
  ⟨fun _ => ⟨pairRegistrar, false, 0, 0, rfl⟩, fun _ => ⟨rfl, rfl⟩, rfl, rfl, rfl,
    rfl, rfl⟩

def pairDialing : World Bool := pairStart.next (.connect true (member 2).peerId (pairAround 1))

theorem pairDialing_reachable : (sudpSystem pairIdentity).Reachable pairDialing :=
  have hstep : (sudpSystem pairIdentity).step pairStart (.connect true (member 2).peerId (pairAround 1))
      pairDialing := ⟨trivial, rfl⟩
  .step (.init pairStart_starts) hstep

/-- A fragment of the HELLO of a session that dials. -/
def helloFragment : Packet := .data true 0 0 [0, 0, 0, 0, 1]

theorem choosesKey_iff_classified_dialing : (pairDialing.client true).state = .handshaking ∧
    ChoosesKey (pairAround 2) (pairDialing.client true) helloFragment := by
  refine ⟨by decide +kernel, ?_⟩
  have huntagged : ¬ helloFragment.Tagged := fun htagged => htagged.2 rfl
  exact (choosesKey_iff_classified pairDialing_reachable true (pairAround 2) helloFragment).mpr
    ⟨fun _ _ => huntagged, fun _ htagged => absurd htagged huntagged⟩

-- The dialer gets the second fragment of the answer after the third one, and asks for it by a SACK.
theorem sack_under_unset_key :
    ¬ ∀ (ident : Bool → Identity) (s : World Bool) (i : Bool) (e : Around Bool) (p : Packet),
      (sudpSystem ident).Reachable s → ChoosesKey e (s.client i) p := by
  intro h
  have hchooses := h pairIdentity pairDialing true (pairAround 2) (.sack 0 2 1 2) pairDialing_reachable
  have hstate : (pairDialing.client true).state = .handshaking := rfl
  have hin : (pairDialing.client true).timedOut 2 = false := rfl
  exact (classified_of_choosesKey (reachable_apart pairDialing_reachable true) hchooses).key hin
    (by rw [hstate]; decide) (by decide : (1 : BitVec 32) ≠ 0)

end Handshaking

end YumiBrowser.Sudp

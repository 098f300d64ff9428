import Mathlib.Data.List.Infix
import YumiBrowser.Network.IceAgreement
import YumiBrowser.Network.KeyChoice
import YumiBrowser.Network.SendLedger

universe u v x

namespace YumiBrowser.Udp

open Transition Wire
open YumiBrowser.Sudp (flagReliable flagAck flagProbe buildPacket length_buildPacket drop_buildPacket
  payloadOf_buildPacket)

/-- The datagram that `worker_send_raw` makes of an item. -/
def Sent.bytes {ι : Type u} (e : Sent ι) : List Byte :=
  buildPacket (if e.ticket.work.type = .sendReliable then flagReliable else 0) e.ticket.work.channel (wire e.seq)
    e.ticket.work.data

def Sent.packet {ι : Type u} (e : Sent ι) : DataPacket (List Byte) where
  channel := e.ticket.work.channel
  reliable := e.ticket.work.type = .sendReliable
  seq := wire e.seq
  payload := e.ticket.work.data

def DataPacket.call (p : DataPacket (List Byte)) : RecvCall := ⟨p.payload, p.reliable, p.seq⟩

def IsControl (pt : List Byte) : Prop :=
  pt.length < hdrSize ∨ hdrFlags pt &&& flagAck ≠ 0 ∨ hdrFlags pt &&& flagProbe ≠ 0

def packetOf (pt : List Byte) : DataPacket (List Byte) where
  channel := hdrChannel pt
  reliable := hdrFlags pt &&& flagReliable ≠ 0
  seq := hdrSeq pt
  payload := (pt.drop hdrSize).take (min (hdrPayloadLen pt) (pt.length - hdrSize))

section Reading

variable {ι : Type u} {e : Sent ι}

theorem hdrSeq_buildPacket (flags channel : BitVec 8) (seq : BitVec 32) (payload : List Byte) :
    hdrSeq (buildPacket flags channel seq payload) = seq := by
  have hfield : ((buildPacket flags channel seq payload).drop 2).take 4 = writeU32 seq :=
    List.take_left' (length_toLe 4 _)
  have hseq : seq.toNat < 256 ^ 4 := seq.isLt
  rw [hdrSeq, hfield, writeU32, ofLe_toLe, Nat.mod_eq_of_lt hseq, BitVec.ofNat_toNat, BitVec.setWidth_eq]

theorem packetOf_bytes (h : e.ticket.work.data.length < 2 ^ 32) : packetOf e.bytes = e.packet := by
  have hlength : e.bytes.length - hdrSize = e.ticket.work.data.length := by
    rw [Sent.bytes, length_buildPacket]
    exact Nat.add_sub_cancel_left ..
  have hpayload : (e.bytes.drop hdrSize).take (min (hdrPayloadLen e.bytes) (e.bytes.length - hdrSize)) =
      e.ticket.work.data := by
    rw [hlength]
    have hread : (e.bytes.drop hdrSize).take (hdrPayloadLen e.bytes) = e.ticket.work.data := payloadOf_buildPacket h
    have hdrop : e.bytes.drop hdrSize = e.ticket.work.data := drop_buildPacket ..
    rw [hdrop] at hread ⊢
    rw [← List.take_take, List.take_length, hread]
  have hseq : hdrSeq e.bytes = wire e.seq := hdrSeq_buildPacket ..
  have hflags : (hdrFlags e.bytes &&& flagReliable ≠ 0) ↔ e.ticket.work.type = .sendReliable := by
    change (if _ then flagReliable else 0) &&& flagReliable ≠ 0 ↔ _
    by_cases htype : e.ticket.work.type = .sendReliable
    · rw [if_pos htype]
      exact iff_of_true (by decide) htype
    · rw [if_neg htype]
      exact iff_of_false (by decide) htype
  unfold packetOf Sent.packet
  rw [hpayload, hseq, decide_eq_decide.mpr hflags]
  rfl

end Reading

section Receiving

variable {σ : Type x} {hooks : Hooks σ} {clock : ℕ → ℕ} {s : RecvWorker σ} {b : Inbox (List Byte)}

/-- The calls of `recv_cb` are those of an inbox. -/
structure Mirrors (s : RecvWorker σ) (b : Inbox (List Byte)) : Prop where
  lane : s.lane = b.lane
  delivered : s.delivered = b.delivered.map DataPacket.call

theorem callbacks_same (recvCb : σ → List Byte → Bool → BitVec 32 → σ) (drained : List (BitVec 32 × List Byte)) :
    (s.callbacks recvCb drained).lane = s.lane ∧
      (s.callbacks recvCb drained).delivered = s.delivered ++ drained.map fun x => ⟨x.2, true, x.1⟩ := by
  induction drained generalizing s with
  | nil => exact ⟨rfl, (List.append_nil _).symm⟩
  | cons x drained ih =>
    obtain ⟨hlane, hdelivered⟩ := @ih (s.callback recvCb ⟨x.2, true, x.1⟩)
    refine ⟨hlane, hdelivered.trans ?_⟩
    rw [List.map_cons, List.append_cons]
    rfl

theorem answer_same (channel : BitVec 8) (reply : Option Reply) :
    (s.answer channel reply).lane = s.lane ∧ (s.answer channel reply).delivered = s.delivered := by
  cases reply with
  | none => exact ⟨rfl, rfl⟩
  | some reply =>
    cases reply with
    | _ => exact ⟨rfl, rfl⟩

theorem mirrors_pkt (h : Mirrors s b) (pt : List Byte) :
    Mirrors (workerRecvPkt hooks clock s pt pt.length) b ∨
      ¬ IsControl pt ∧ Mirrors (workerRecvPkt hooks clock s pt pt.length) (b.recv (packetOf pt)) := by
  unfold workerRecvPkt
  split
  · exact .inl h
  · next hlong =>
    split
    · dsimp only
      split
      · exact .inl ⟨h.lane, h.delivered⟩
      · exact .inl ⟨h.lane, h.delivered⟩
    · next hack =>
      split
      · split
        · exact .inl ⟨h.lane, h.delivered⟩
        · exact .inl h
      · next hprobe =>
        split
        · exact .inl h
        · next recvCb _ =>
          refine .inr ⟨fun hcontrol => hcontrol.elim hlong fun hflag => hflag.elim hack hprobe, ?_⟩
          dsimp only
          split
          · next hreliable =>
            have hrecv : b.recv (packetOf pt) = b.recvReliable (packetOf pt) := if_pos (decide_eq_true hreliable)
            rw [hrecv]
            constructor
            · rw [(answer_same _ _).1, (callbacks_same _ _).1]
              unfold RecvWorker.setReliable
              rw [h.lane]
              rfl
            · have hcall : DataPacket.call ∘ (fun x : BitVec 32 × List Byte =>
                  { packetOf pt with seq := x.1, payload := x.2 }) = fun x => ⟨x.2, true, x.1⟩ := by
                funext x
                exact congrArg (RecvCall.mk x.2 · x.1) (decide_eq_true hreliable)
              have hlane := congrFun h.lane (hdrChannel pt)
              rw [(answer_same _ _).2, (callbacks_same _ _).2]
              unfold Inbox.recvReliable
              dsimp only
              rw [List.map_append, List.map_map, hcall, ← h.delivered, hlane]
              rfl
          · next hreliable =>
            have hrecv : b.recv (packetOf pt) = b.recvUnreliable (packetOf pt) :=
              if_neg fun hflag => hreliable (of_decide_eq_true hflag)
            have hcall : (packetOf pt).call = ⟨(packetOf pt).payload, false, hdrSeq pt⟩ :=
              congrArg (RecvCall.mk _ · _) (decide_eq_false hreliable)
            rw [hrecv]
            unfold Inbox.recvUnreliable RecvWorker.setUnreliable
            rw [h.lane]
            have hlane : (packetOf pt).channel = hdrChannel pt := rfl
            have hseq : (packetOf pt).seq = hdrSeq pt := rfl
            rw [hlane, hseq]
            split
            · next htaken =>
              refine ⟨rfl, ?_⟩
              dsimp only
              rw [if_pos htaken, List.map_append, ← h.delivered, List.map_singleton, hcall]
              rfl
            · next htaken =>
              refine ⟨rfl, ?_⟩
              dsimp only
              rw [if_neg htaken, ← h.delivered]

def opened (hooks : Hooks σ) (s : RecvWorker σ) (datagram : List Byte) : Option (List Byte) :=
  match hooks.pktDecrypt with
  | none => some (datagram.take maxDgram)
  | some pktDecrypt => (pktDecrypt s.session (datagram.take maxDgram)).2

theorem mirrors_buffer (hooks : Hooks σ) (clock : ℕ → ℕ) (h : Mirrors s b) (buf pt : List Byte) :
    Mirrors (workerRecvPkt hooks clock s (copyInto buf pt) pt.length) b ∨
      ¬ IsControl pt ∧ Mirrors (workerRecvPkt hooks clock s (copyInto buf pt) pt.length) (b.recv (packetOf pt)) := by
  rw [← workerRecvPkt_take, take_copyInto]
  exact mirrors_pkt h pt

theorem mirrors_datagram (h : Mirrors s b) (datagram : List Byte) :
    Mirrors (workerRecvDatagram hooks clock s datagram) b ∨
      ∃ pt, opened hooks s datagram = some pt ∧ ¬ IsControl pt ∧
        Mirrors (workerRecvDatagram hooks clock s datagram) (b.recv (packetOf pt)) := by
  have hlength : min datagram.length maxDgram = (datagram.take maxDgram).length := by
    rw [List.length_take, Nat.min_comm]
  unfold workerRecvDatagram opened
  rw [hlength]
  cases hooks.pktDecrypt with
  | none =>
    have hfilled : Mirrors { s with recvBuf := copyInto s.recvBuf (datagram.take maxDgram) } b :=
      ⟨h.lane, h.delivered⟩
    exact (mirrors_buffer hooks clock hfilled s.recvBuf (datagram.take maxDgram)).imp_right fun hdata =>
      ⟨_, rfl, hdata⟩
  | some pktDecrypt =>
    dsimp only
    rw [take_copyInto]
    obtain ⟨session, hopen⟩ | ⟨session, pt, hopen⟩ := decrypted (pktDecrypt s.session (datagram.take maxDgram))
    · rw [hopen]
      exact .inl ⟨h.lane, h.delivered⟩
    · rw [hopen]
      have hfilled : Mirrors { s with
          session
          recvBuf := copyInto s.recvBuf (datagram.take maxDgram)
          cryptoBuf := copyInto s.cryptoBuf pt } b := ⟨h.lane, h.delivered⟩
      exact (mirrors_buffer hooks clock hfilled s.cryptoBuf pt).imp_right fun hdata => ⟨pt, rfl, hdata⟩

end Receiving

section Pieces

variable {α β : Type*}

theorem infix_of_consecutive {log : List α} {f : α → β} {place : β → ℕ} (xs : List β)
    (hpick : ∀ x ∈ xs, ∃ y, log[place x]? = some y ∧ f y = x)
    (hchain : xs.IsChain fun a b => place b = place a + 1) : ∃ piece, piece <:+: log ∧ xs = piece.map f := by
  have haux (x : β) (xs : List β) (hpick : ∀ z ∈ x :: xs, ∃ y, log[place z]? = some y ∧ f y = z)
      (hchain : (x :: xs).IsChain fun a b => place b = place a + 1) :
      ∃ piece, piece <+: log.drop (place x) ∧ x :: xs = piece.map f := by
    induction xs generalizing x with
    | nil =>
      obtain ⟨y, hy, rfl⟩ := hpick x List.mem_cons_self
      refine ⟨[y], ?_, rfl⟩
      rw [List.drop_eq_getElem?_toList_append, hy]
      exact List.prefix_append _ _
    | cons x' xs ih =>
      obtain ⟨y, hy, rfl⟩ := hpick x List.mem_cons_self
      rw [List.isChain_cons_cons] at hchain
      obtain ⟨piece, hpiece, hmap⟩ := ih x' (fun z hz => hpick z (List.mem_cons_of_mem _ hz)) hchain.2
      rw [hchain.1] at hpiece
      refine ⟨y :: piece, ?_, by rw [hmap, List.map_cons]⟩
      rw [List.drop_eq_getElem?_toList_append, hy]
      exact List.cons_prefix_cons.mpr ⟨rfl, hpiece⟩
  cases xs with
  | nil => exact ⟨[], List.nil_infix, rfl⟩
  | cons x xs =>
    obtain ⟨piece, hpiece, hmap⟩ := haux x xs hpick hchain
    exact ⟨piece, hpiece.isInfix.trans (List.drop_suffix _ _).isInfix, hmap⟩

end Pieces

structure Transfer (ι : Type u) (σ : Type x) where
  sender : PacedPool ι
  receiver : RecvWorker σ

namespace Transfer

inductive Event (ι : Type u)
  | send (e : PacedPool.Event ι)
  | arrive (datagram : List Byte)

variable {ι : Type u} {σ : Type x}

/-- The network loses, repeats and delays the packets that have been sent, and others may send what is no data
packet. -/
def Genuine (hooks : Hooks σ) (s : Transfer ι σ) : Event ι → Prop
  | .send _ => True
  | .arrive datagram => ∀ pt, opened hooks s.receiver datagram = some pt → ¬ IsControl pt →
      ∃ e ∈ s.sender.pool.sent, pt = e.bytes

end Transfer

def transferSystem (ι : Type u) [DecidableEq ι] {σ : Type x} {F : Type v} [Double F] (toI64 : F → ℤ) (hooks : Hooks σ)
    (clock : ℕ → ℕ) (workers maxPayload : ℕ) : System (Transfer ι σ) (Transfer.Event ι) where
  init s := s.sender.Started ∧ s.receiver.lane = (fun _ => ⟨.fresh, .fresh⟩) ∧ s.receiver.delivered = []
  step s e t :=
    match e with
    | .send e => PacedPool.Step toI64 workers maxPayload s.sender e t.sender ∧ t.receiver = s.receiver
    | .arrive datagram => t = { s with receiver := workerRecvDatagram hooks clock s.receiver datagram }

namespace Transfer

variable {ι : Type u} [DecidableEq ι] {σ : Type x} {F : Type v} [Double F] {toI64 : F → ℤ} {hooks : Hooks σ}
  {clock : ℕ → ℕ} {workers maxPayload : ℕ} {s t : Transfer ι σ}

theorem sender_reachable (h : (transferSystem ι toI64 hooks clock workers maxPayload).Reachable s) :
    (sendSystem ι workers maxPayload).Reachable s.sender.pool := by
  induction h with
  | init h => exact .init h.1.pool
  | @step s e t _ hstep ih =>
    cases e with
    | send e =>
      obtain heq | ⟨e, hstep⟩ := PacedPool.pool_step hstep.1
      · rw [heq]
        exact ih
      · exact .step ih hstep
    | arrive datagram =>
      have hsender : t.sender = s.sender := by rw [hstep]
      rw [hsender]
      exact ih

theorem arrived_recv (b : Inbox (List Byte)) (p : DataPacket (List Byte)) :
    (b.recv p).arrived = b.arrived ++ [p] := by
  unfold Inbox.recv
  split
  · rfl
  · rfl

theorem mirrored (hmax : maxPayload ≤ udpMaxPayload)
    (h : ((transferSystem ι toI64 hooks clock workers maxPayload).restrict (Genuine hooks)).Reachable s) :
    ∃ b : Inbox (List Byte), Mirrors s.receiver b ∧ b.Inv ∧
      ∀ p ∈ b.arrived, ∃ e ∈ s.sender.pool.sent, p = e.packet := by
  induction h with
  | init h => exact ⟨.fresh, ⟨h.2.1, h.2.2⟩, Inbox.inv_fresh, fun p hp => absurd hp List.not_mem_nil⟩
  | @step s e t hs hstep ih =>
    obtain ⟨b, hmirrors, hinv, harrived⟩ := ih
    obtain ⟨hgenuine, hstep⟩ := hstep
    cases e with
    | send e =>
      obtain ⟨hsend, hreceiver⟩ := hstep
      refine ⟨b, hreceiver ▸ hmirrors, hinv, fun p hp => ?_⟩
      obtain ⟨e, he, heq⟩ := harrived p hp
      obtain hpool | ⟨_, hpool⟩ := PacedPool.pool_step hsend
      · exact ⟨e, hpool ▸ he, heq⟩
      · exact ⟨e, SendPool.sent_grows hpool he, heq⟩
    | arrive datagram =>
      obtain rfl : t = { s with receiver := workerRecvDatagram hooks clock s.receiver datagram } := hstep
      obtain hsame | ⟨pt, hopened, hdata, hrecv⟩ := mirrors_datagram hmirrors datagram
      · exact ⟨b, hsame, hinv, harrived⟩
      · obtain ⟨e, he, rfl⟩ := hgenuine pt hopened hdata
        have hlength := SendPool.length_sent (sender_reachable hs.of_restrict) he
        have hpacket : packetOf e.bytes = e.packet :=
          packetOf_bytes ((hlength.trans hmax).trans_lt (by decide))
        refine ⟨b.recv e.packet, hpacket ▸ hrecv, hinv.recv e.packet, fun p hp => ?_⟩
        rw [arrived_recv] at hp
        obtain hold | hnew := List.mem_append.mp hp
        · exact harrived p hold
        · exact ⟨e, he, List.mem_singleton.mp hnew⟩

/-- What is handed up of the reliable packets of a channel is a piece of what has been sent on it, in the same order;
and with one worker, a piece of what the threads have put into the ring for the channel, in which each thread's
messages are in the order of its calls. -/
theorem delivered_in_order (hmax : maxPayload ≤ udpMaxPayload)
    (h : ((transferSystem ι toI64 hooks clock workers maxPayload).restrict (Genuine hooks)).Reachable s)
    (hfew : ∀ ch, s.sender.pool.relSeq ch < 2 ^ 32) :
    ∃ handed : List (DataPacket (List Byte)), s.receiver.delivered = handed.map DataPacket.call ∧
      (∀ p ∈ handed, ∃ e ∈ s.sender.pool.sent, p = e.packet) ∧
      ∀ ch, ∃ piece : List (Sent ι), piece <:+: s.sender.pool.channelLog ch ∧
        (handed.filter fun p => p.channel = ch ∧ p.reliable) = piece.map Sent.packet ∧
        (workers = 1 →
          piece.map Sent.ticket <:+: (s.sender.pool.takenBy 0).filter
            (fun x => x.work.type = .sendReliable ∧ x.work.channel = ch) ∧
          piece.Pairwise fun a b => a.ticket.thread = b.ticket.thread → a.ticket.number < b.ticket.number) := by
  obtain ⟨b, hmirrors, hinv, harrived⟩ := mirrored hmax h
  have hreach := sender_reachable h.of_restrict
  have hledger := SendPool.ledger_reachable hreach
  have hfrom (p : DataPacket (List Byte)) (hp : p ∈ b.delivered) : ∃ e ∈ s.sender.pool.sent, p = e.packet :=
    harrived p (hinv.received p hp)
  refine ⟨b.delivered, hmirrors.delivered, hfrom, fun ch => ?_⟩
  have hpick (p : DataPacket (List Byte)) (hp : p ∈ b.handed ch true) :
      p.seq.toNat < s.sender.pool.relSeq ch ∧
        ∃ e, (s.sender.pool.channelLog ch)[p.seq.toNat]? = some e ∧ e.packet = p := by
    obtain ⟨hdelivered, hon⟩ := List.mem_filter.mp hp
    obtain ⟨e, he, rfl⟩ := hfrom p hdelivered
    obtain ⟨hchannel, hreliable⟩ := of_decide_eq_true hon
    have hlog : e ∈ s.sender.pool.channelLog ch :=
      List.mem_filter.mpr ⟨he, decide_eq_true ⟨of_decide_eq_true hreliable, hchannel⟩⟩
    obtain ⟨hplace, hlt⟩ := hledger.place hlog
    have hseq : e.packet.seq.toNat = e.seq := by
      change (BitVec.ofNat 32 e.seq).toNat = e.seq
      rw [BitVec.toNat_ofNat]
      exact Nat.mod_eq_of_lt (hlt.trans (hfew ch))
    rw [hseq]
    exact ⟨hlt, e, hplace, rfl⟩
  have hchain : (b.handed ch true).IsChain fun p q => q.seq.toNat = p.seq.toNat + 1 := by
    have hconsecutive := (List.isChain_map DataPacket.seq).mp (hinv.ordered.consecutive ch)
    refine hconsecutive.imp_of_mem_imp fun p q hp _ hnext => ?_
    rw [hnext, BitVec.toNat_add]
    exact Nat.mod_eq_of_lt (by
      have hlt := (hpick p hp).1
      have hless := hfew ch
      exact Nat.lt_of_le_of_lt (Nat.succ_le_of_lt hlt) hless)
  obtain ⟨piece, hpiece, hmap⟩ := infix_of_consecutive _ (fun p hp => (hpick p hp).2) hchain
  have hlogged := (SendPool.reachable_inv hreach).2
  refine ⟨piece, hpiece, hmap, fun hone => ?_⟩
  have hworker (a : Sent ι) (ha : a ∈ s.sender.pool.sent) : a.worker = 0 :=
    Nat.lt_one_iff.mp (hone ▸ hlogged.worker a ha)
  refine ⟨?_, ?_⟩
  · rw [← hledger.log_tickets hworker]
    exact hpiece.map Sent.ticket
  · have hsub : piece.Sublist s.sender.pool.sent := hpiece.sublist.trans List.filter_sublist
    refine (hlogged.taken.sublist hsub).imp_of_mem fun ha hb htaken => ?_
    exact htaken ((hworker _ (hsub.subset ha)).trans (hworker _ (hsub.subset hb)).symm)

section Greeting

theorem send_step {p q : PacedPool ι} {e : PacedPool.Event ι} {r : RecvWorker σ}
    (h : ((transferSystem ι toI64 hooks clock workers maxPayload).restrict (Genuine hooks)).Reachable ⟨p, r⟩)
    (hstep : PacedPool.Step toI64 workers maxPayload p e q) :
    ((transferSystem ι toI64 hooks clock workers maxPayload).restrict (Genuine hooks)).Reachable ⟨q, r⟩ := by
  have hgenuine : Genuine hooks (⟨p, r⟩ : Transfer ι σ) (.send e) := trivial
  exact .step h ⟨hgenuine, hstep, rfl⟩

def greeting : Sent ℕ := ⟨0, ⟨0, 0, SendPool.reliableItem [104, 105]⟩, 0⟩

def question : Sent ℕ := ⟨0, ⟨1, 0, SendPool.reliableItem [63]⟩, 1⟩

def parting : Sent ℕ := ⟨0, ⟨0, 1, SendPool.reliableItem [98, 121, 101]⟩, 2⟩

/-- Thread `i` has put an item into the ring of worker 0, at its next place. -/
def enqueued (s : PacedPool ℕ) (i place : ℕ) (data : List Byte) : PacedPool ℕ :=
  let item := SendPool.reliableItem data
  let called := s.pool.enqueueWork 1 1442 i item
  let reserved := (called.setRing 0 (called.rings 0).reserve).setCaller i (.holding 0 place item)
  { s with pool := reserved.commit i 0 place item }

def asked : PacedPool ℕ :=
  { enqueued (enqueued (enqueued PacedPool.atRest 0 0 [104, 105]) 1 1 [63]) 0 2 [98, 121, 101] with now := 1000 }

def conversed : PacedPool ℕ := (fun s => s.sendWorkerThread (F := Exact) Rat.floor 0)^[6] asked

theorem conversed_sent : conversed.pool.sent = [greeting, question, parting] := by decide +kernel

theorem conversed_reachable : ((transferSystem ℕ (F := Exact) Rat.floor plainHooks id 1 1442).restrict
    (Genuine plainHooks)).Reachable ⟨conversed, idleWorker⟩ := by
  let S := (transferSystem ℕ (F := Exact) Rat.floor plainHooks id 1 1442).restrict (Genuine plainHooks)
  have hstart : S.Reachable ⟨PacedPool.atRest, idleWorker⟩ :=
    .init ⟨⟨⟨0, rfl⟩, fun _ => rfl, fun _ => BitVec.le_refl _, fun _ => rfl⟩, rfl, rfl⟩
  have hwork {s : PacedPool ℕ} (h : S.Reachable ⟨s, idleWorker⟩) (hrunning : s.pool.stopped 0 = false) :
      S.Reachable ⟨s.sendWorkerThread (F := Exact) Rat.floor 0, idleWorker⟩ :=
    send_step h (.work 0 Nat.one_pos hrunning)
  have hcalled := send_step hstart
    (.enqueue (.call 0) _ nofun (.call 0 (SendPool.reliableItem [104, 105]) rfl (.inl rfl)))
  have hreserved := send_step hcalled (.enqueue (.reserve 0) _ nofun (.reserve 0 rfl (by decide)))
  have hgreeting := send_step hreserved (.enqueue (.commit 0) _ nofun (.commit 0 rfl))
  have hcalled' := send_step hgreeting
    (.enqueue (.call 1) _ nofun (.call 1 (SendPool.reliableItem [63]) rfl (.inl rfl)))
  have hreserved' := send_step hcalled' (.enqueue (.reserve 1) _ nofun (.reserve 1 rfl (by decide)))
  have hquestion := send_step hreserved' (.enqueue (.commit 1) _ nofun (.commit 1 rfl))
  have hcalled'' := send_step hquestion
    (.enqueue (.call 0) _ nofun (.call 0 (SendPool.reliableItem [98, 121, 101]) rfl (.inl rfl)))
  have hreserved'' := send_step hcalled'' (.enqueue (.reserve 0) _ nofun (.reserve 0 rfl (by decide)))
  have hparting := send_step hreserved'' (.enqueue (.commit 0) _ nofun (.commit 0 rfl))
  have hasked : S.Reachable ⟨asked, idleWorker⟩ := send_step hparting (.clock 1000 (by decide))
  have hdrain := hwork (hwork (hwork (hwork hasked rfl) rfl) rfl) rfl
  exact hwork (hwork hdrain (by decide +kernel)) (by decide +kernel)

-- The last datagram overtakes the one before it, and comes twice.
def arrivals : List (Sent ℕ) := [greeting, parting, question, parting]

def received : Transfer ℕ ℕ :=
  ⟨conversed, arrivals.foldl (fun r e => workerRecvDatagram plainHooks id r e.bytes) idleWorker⟩

theorem arrive_reachable {es : List (Sent ℕ)} {r : RecvWorker ℕ}
    (hes : ∀ e ∈ es, e ∈ [greeting, question, parting])
    (hr : ((transferSystem ℕ (F := Exact) Rat.floor plainHooks id 1 1442).restrict
      (Genuine plainHooks)).Reachable ⟨conversed, r⟩) :
    ((transferSystem ℕ (F := Exact) Rat.floor plainHooks id 1 1442).restrict (Genuine plainHooks)).Reachable
      ⟨conversed, es.foldl (fun r e => workerRecvDatagram plainHooks id r e.bytes) r⟩ := by
  induction es generalizing r with
  | nil => exact hr
  | cons e es ih =>
    obtain ⟨he, hes⟩ := List.forall_mem_cons.mp hes
    have hshort : ∀ e ∈ [greeting, question, parting], e.bytes.length ≤ maxDgram := by decide
    have hgenuine : Genuine plainHooks ⟨conversed, r⟩ (.arrive e.bytes) := by
      intro pt hopened _
      refine ⟨e, ?_, (Option.some.inj hopened).symm.trans (List.take_of_length_le (hshort e he))⟩
      rw [conversed_sent]
      exact he
    exact ih hes (.step hr ⟨hgenuine, rfl⟩)

theorem received_reachable : ((transferSystem ℕ (F := Exact) Rat.floor plainHooks id 1 1442).restrict
    (Genuine plainHooks)).Reachable received := by
  refine arrive_reachable (fun e he => ?_) conversed_reachable
  simp only [arrivals, List.mem_cons, List.not_mem_nil, or_false] at he ⊢
  tauto

theorem received_few (ch : BitVec 8) : received.sender.pool.relSeq ch < 2 ^ 32 := by
  have hledger := SendPool.ledger_reachable (sender_reachable received_reachable.of_restrict)
  have hsent : received.sender.pool.sent = [greeting, question, parting] := conversed_sent
  have hlog : (received.sender.pool.channelLog ch).length ≤ received.sender.pool.sent.length :=
    List.length_filter_le _ _
  rw [hledger.length_log, hsent] at hlog
  exact hlog.trans_lt (by decide)

theorem delivered_in_order_conversed :
    received.receiver.delivered = [⟨[104, 105], true, 0⟩, ⟨[63], true, 1⟩, ⟨[98, 121, 101], true, 2⟩] ∧
    ∃ handed : List (DataPacket (List Byte)), received.receiver.delivered = handed.map DataPacket.call ∧
      (∀ p ∈ handed, ∃ e ∈ received.sender.pool.sent, p = e.packet) ∧
      ∀ ch, ∃ piece : List (Sent ℕ), piece <:+: received.sender.pool.channelLog ch ∧
        (handed.filter fun p => p.channel = ch ∧ p.reliable) = piece.map Sent.packet ∧
        (1 = 1 →
          piece.map Sent.ticket <:+: (received.sender.pool.takenBy 0).filter
            (fun x => x.work.type = .sendReliable ∧ x.work.channel = ch) ∧
          piece.Pairwise fun a b => a.ticket.thread = b.ticket.thread → a.ticket.number < b.ticket.number) :=
  ⟨by decide +kernel, delivered_in_order le_rfl received_reachable received_few⟩

end Greeting

end Transfer

end YumiBrowser.Udp

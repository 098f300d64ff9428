import YumiBrowser.Client.PeerSlots

namespace YumiBrowser.Client

open Wire Transition
open YumiBrowser.Group
open Sudp (World Event Around Output Received Message Datagram Uses Establishes)

variable {ι : Type}

section Relations

structure SameSlot (a b : PeerSlot ι) : Prop where
  peerId : b.peerId = a.peerId
  sudp : b.sudp = a.sudp
  posted : b.posted = a.posted
  state : b.state = a.state ∨ b.state = .failed

theorem SameSlot.refl (a : PeerSlot ι) : SameSlot a a := ⟨rfl, rfl, rfl, .inl rfl⟩

theorem SameSlot.trans {a b c : PeerSlot ι} (h : SameSlot a b) (h' : SameSlot b c) : SameSlot a c where
  peerId := h'.peerId.trans h.peerId
  sudp := h'.sudp.trans h.sudp
  posted := h'.posted.trans h.posted
  state := by
    cases h'.state with
    | inl heq =>
      rw [heq]
      exact h.state
    | inr hfailed => exact .inr hfailed

theorem SameSlot.connected {a b : PeerSlot ι} (h : SameSlot a b) (hb : b.state = .connected) :
    a.state = .connected := by
  cases h.state with
  | inl heq => exact heq.symm.trans hb
  | inr hfailed => exact nomatch hfailed.symm.trans hb

variable [DecidableEq ι]

inductive Sends : World ι → World ι → Prop
  | refl : Sends s s
  | tail (i : ι) (maxPayload : ℕ) (channel : BitVec 8) (data : List Byte) (reliable : Bool) :
    Sends s t → Sends s (t.next (.send i maxPayload channel data reliable))

theorem Sends.trans {s t u : World ι} (h : Sends s t) (h' : Sends t u) : Sends s u := by
  induction h' with
  | refl => exact h
  | tail i maxPayload channel data reliable _ ih => exact .tail i maxPayload channel data reliable ih

theorem Sends.uses {s t : World ι} (h : Sends s t) : Uses s t := by
  induction h with
  | refl => exact ⟨⟨rfl, rfl, fun _ hr => hr⟩, fun _ => .refl _⟩
  | @tail t i maxPayload channel data reliable _ ih =>
    have huse : (Event.send i maxPayload channel data reliable).IsUse := trivial
    have hsend := Sudp.uses_next (s := t) huse
    exact ⟨ih.toPasses.trans hsend.toPasses, fun j => (ih.continues j).trans (hsend.continues j)⟩

structure Marks (s t : Desk ι) : Prop where
  slot : ∀ k, SameSlot (s.peers k) (t.peers k)
  rest : t = { s with peers := t.peers }

omit [DecidableEq ι] in
theorem Marks.trans {s t u : Desk ι} (h : Marks s t) (h' : Marks t u) : Marks s u where
  slot k := (h.slot k).trans (h'.slot k)
  rest := by rw [h'.rest, h.rest]

structure Acts (s t : Desk ι) : Prop where
  slot : ∀ k, (t.peers k).peerId = (s.peers k).peerId ∧ (t.peers k).sudp = (s.peers k).sudp ∧
    (t.peers k).posted = (s.peers k).posted
  rest : t = { s with peers := t.peers, recorded := t.recorded }

omit [DecidableEq ι] in
theorem Acts.trans {s t u : Desk ι} (h : Acts s t) (h' : Acts t u) : Acts s u where
  slot k := by
    rw [(h'.slot k).1, (h'.slot k).2.1, (h'.slot k).2.2]
    exact h.slot k
  rest := by rw [h'.rest, h.rest]

structure Talks (s t : Desk ι) : Prop where
  world : Sends s.world t.world
  slot : ∀ k, SameSlot (s.peers k) (t.peers k)
  used : t.used = s.used
  recorded : t.recorded = s.recorded
  heard : ∀ x ∈ t.log, (∃ item key, x.what = .heard item key) → x ∈ s.log

theorem Talks.refl (s : Desk ι) : Talks s s :=
  ⟨.refl, fun _ => .refl _, rfl, rfl, fun _ hx _ => hx⟩

theorem Talks.trans {s t u : Desk ι} (h : Talks s t) (h' : Talks t u) : Talks s u where
  world := h.world.trans h'.world
  slot k := (h.slot k).trans (h'.slot k)
  used := h'.used.trans h.used
  recorded := h'.recorded.trans h.recorded
  heard x hx hwhat := h.heard x (h'.heard x hx hwhat) hwhat

end Relations

def DeskEvent.writes : DeskEvent ι → Bool
  | .slot _ (.deliver d _ _ _) => decide ((Sudp.payloadOf d.packet)[4]? = some syncCh)
  | .mutate _ _ => true
  | _ => false

theorem not_established_of_passing {out : Output ι} (h : out.Passing) : out ≠ .state .established := by
  rintro rfl
  exact h

namespace Desk

variable [DecidableEq ι] (s : Desk ι) (k : Fin maxPeers)

section Callbacks

omit [DecidableEq ι] in
theorem sameSlot_modify {f : PeerSlot ι → PeerSlot ι} (hf : SameSlot (s.peers k) (f (s.peers k)))
    (j : Fin maxPeers) : SameSlot (s.peers j) ((s.modify k f).peers j) := by
  change SameSlot (s.peers j) (Function.update s.peers k (f (s.peers k)) j)
  rw [Function.update_apply]
  split
  · next hj => exact hj ▸ hf
  · exact .refl _

omit [DecidableEq ι] in
theorem marks_fail : Marks s (s.modify k (.setState .failed)) where
  slot := s.sameSlot_modify k ⟨rfl, rfl, rfl, .inr rfl⟩
  rest := rfl

theorem marks_stateCb (i : ι) {out : Output ι} (h : out ≠ .state .established) :
    Marks s (s.stateCb k i out) := by
  cases out with
  | state new =>
    cases new with
    | established => exact absurd rfl h
    | failed => exact s.marks_fail k
    | _ => exact ⟨fun _ => .refl _, rfl⟩
  | _ => exact ⟨fun _ => .refl _, rfl⟩

omit [DecidableEq ι] in
theorem acts_modify {state : SlotState} {recorded : ι → Option PublicKey} :
    Acts s { s.modify k (.setState state) with recorded } where
  slot j := by
    have hslot : ({ s.modify k (.setState state) with recorded } : Desk ι).peers j =
      if j = k then (s.peers k).setState state else s.peers j := Function.update_apply ..
    rw [hslot]
    split
    · next hj => exact hj ▸ ⟨rfl, rfl, rfl⟩
    · exact ⟨rfl, rfl, rfl⟩
  rest := rfl

theorem acts_stateCb (i : ι) (out : Output ι) : Acts s (s.stateCb k i out) := by
  cases out with
  | state new =>
    cases new with
    | established => exact s.acts_modify k
    | failed => exact s.acts_modify k
    | _ => exact ⟨fun _ => ⟨rfl, rfl, rfl⟩, rfl⟩
  | _ => exact ⟨fun _ => ⟨rfl, rfl, rfl⟩, rfl⟩

theorem acts_act (i : ι) (event : Event ι) : Acts { s with world := s.world.next event } (s.act k i event) := by
  have hfold : ∀ (outs : List (Output ι)) (t : Desk ι),
      Acts t (outs.foldl (fun s out => s.stateCb k i out) t) := by
    intro outs
    induction outs with
    | nil => exact fun t => ⟨fun _ => ⟨rfl, rfl, rfl⟩, rfl⟩
    | cons out outs ih => exact fun t => (t.acts_stateCb k i out).trans (ih _)
  exact hfold _ _

theorem world_act (i : ι) (event : Event ι) : (s.act k i event).world = s.world.next event := by
  rw [(s.acts_act k i event).rest]

theorem reg_act (i : ι) (event : Event ι) : (s.act k i event).reg = s.reg := by
  rw [(s.acts_act k i event).rest]

theorem reg_work (i : ι) (e : Around ι) : (s.work k i e).reg = s.reg := by
  unfold work
  split
  · rfl
  · exact reg_act _ k i _

theorem marks_act (i : ι) {event : Event ι}
    (h : ∀ out ∈ s.world.outputs event, out ≠ .state .established) :
    Marks { s with world := s.world.next event } (s.act k i event) := by
  have hfold : ∀ (outs : List (Output ι)) (t : Desk ι), (∀ out ∈ outs, out ≠ .state .established) →
      Marks t (outs.foldl (fun s out => s.stateCb k i out) t) := by
    intro outs
    induction outs with
    | nil => exact fun t _ => ⟨fun _ => .refl _, rfl⟩
    | cons out outs ih =>
      intro t hall
      exact (t.marks_stateCb k i (hall out (List.mem_cons_self ..))).trans
        (ih _ fun o ho => hall o (List.mem_cons_of_mem _ ho))
  exact hfold _ _ h

theorem act_establishes (i : ι) {event : Event ι} (h : Establishes signature (s.world.outputs event)) :
    s.act k i event = { s with world := s.world.next event }.stateCb k i (.state .established) := by
  unfold act
  generalize s.world.outputs event = outs at h
  cases h with
  | confirm => rfl
  | response own m => rfl

end Callbacks

theorem deliver_cases (i : ι) (crypto : Crypto) (maxPayload : ℕ) (now : I64) (d : Datagram ι) (reliable : Bool) :
    s.deliver crypto k maxPayload now i d reliable = s.act k i (.deliver i d reliable) ∨
    ∃ channel data, (s.world.client i).peerActive = true ∧
      s.world.outputs (.deliver i d reliable) = [.received channel data reliable] ∧
      s.deliver crypto k maxPayload now i d reliable =
        (s.act k i (.deliver i d reliable)).recvCb crypto k maxPayload now i channel data reliable := by
  unfold deliver
  generalize houts : s.world.outputs (.deliver i d reliable) = outs
  change (Sudp.innerRecvData (s.world.client i) (Sudp.payloadOf d.packet) reliable).2 = outs at houts
  unfold Sudp.innerRecvData at houts
  split at houts
  · subst houts
    exact .inl rfl
  · next channel data _ =>
    split at houts
    · subst houts
      exact .inl rfl
    · next hactive =>
      split at houts
      · subst houts
        exact .inl rfl
      · subst houts
        exact .inr ⟨channel, data, not_not.mp hactive, rfl, rfl⟩

section Sending

variable (maxPayload : ℕ)

theorem talks_modify {f : PeerSlot ι → PeerSlot ι} (hf : SameSlot (s.peers k) (f (s.peers k))) :
    Talks s (s.modify k f) :=
  ⟨.refl, s.sameSlot_modify k hf, rfl, rfl, fun _ hx _ => hx⟩

theorem talks_note {what : Passage ι} (h : ∀ item key, what ≠ .heard item key) : Talks s (s.note k what) := by
  refine ⟨.refl, fun _ => .refl _, rfl, rfl, fun x hx hwhat => ?_⟩
  cases hx with
  | head =>
    obtain ⟨item, key, heq⟩ := hwhat
    exact absurd heq (h item key)
  | tail _ hx => exact hx

theorem talks_sendChannel (channel : BitVec 8) (data : List Byte) (reliable : Bool) :
    Talks s (s.sendChannel k maxPayload channel data reliable).1 := by
  unfold sendChannel
  split
  · exact .refl s
  · next i hi =>
    have huse : (Event.send i maxPayload channel data reliable).IsUse := trivial
    have hmarks := s.marks_act k i fun out hout =>
      not_established_of_passing (Sudp.passing_outputs huse out hout)
    dsimp only
    rw [hmarks.rest]
    exact ⟨.tail i maxPayload channel data reliable .refl, hmarks.slot, rfl, rfl, fun _ hx _ => hx⟩

theorem talks_sendAll (channel : BitVec 8) (pkts : List (List Byte)) :
    Talks s (s.sendAll k maxPayload channel pkts).1 := by
  induction pkts generalizing s with
  | nil => exact .refl s
  | cons pkt rest ih =>
    have hsent := s.talks_sendChannel k maxPayload channel pkt true
    unfold sendAll
    dsimp only
    split
    · exact hsent.trans (ih _)
    · exact hsent

theorem kept_sendChannel (channel : BitVec 8) (data : List Byte) (reliable : Bool) :
    (s.sendChannel k maxPayload channel data reliable).1.reg = s.reg ∧
      (s.sendChannel k maxPayload channel data reliable).1.log = s.log := by
  unfold sendChannel
  split
  · exact ⟨rfl, rfl⟩
  · next i _ =>
    dsimp only
    rw [(s.acts_act k i _).rest]
    exact ⟨rfl, rfl⟩

theorem kept_sendAll (channel : BitVec 8) (pkts : List (List Byte)) :
    (s.sendAll k maxPayload channel pkts).1.reg = s.reg ∧
      (s.sendAll k maxPayload channel pkts).1.log = s.log := by
  induction pkts generalizing s with
  | nil => exact ⟨rfl, rfl⟩
  | cons pkt rest ih =>
    have hsent := s.kept_sendChannel k maxPayload channel pkt true
    unfold sendAll
    dsimp only
    split
    · exact ⟨(ih _).1.trans hsent.1, (ih _).2.trans hsent.2⟩
    · exact hsent

theorem kept_syncSend (msgType : Byte) (data : List Byte) :
    (s.syncSend k maxPayload msgType data).1.reg = s.reg ∧
      (s.syncSend k maxPayload msgType data).1.log = s.log := by
  unfold syncSend
  split
  · exact s.kept_sendAll k maxPayload syncCh _
  · exact ⟨rfl, rfl⟩

theorem reg_syncSendDeltaTo (since : BitVec 32) : (s.syncSendDeltaTo k maxPayload since).reg = s.reg := by
  have hkept := (s.kept_syncSend k maxPayload syncDelta (serializeDelta s.reg since)).1
  unfold syncSendDeltaTo
  dsimp only
  split
  · exact hkept
  · exact hkept

theorem reg_broadcastTo (since : BitVec 32) : (s.broadcastTo k maxPayload since).reg = s.reg := by
  unfold broadcastTo
  split
  · split
    · exact s.reg_syncSendDeltaTo k maxPayload _
    · rfl
  · rfl

theorem reg_syncBroadcastDelta (since : BitVec 32) : (s.syncBroadcastDelta maxPayload since).reg = s.reg := by
  unfold syncBroadcastDelta
  induction List.finRange maxPeers generalizing s with
  | nil => rfl
  | cons k slots ih => exact (ih _).trans (s.reg_broadcastTo k maxPayload since)

theorem reg_poll : (s.poll maxPayload).reg = s.reg := by
  unfold poll
  split
  · exact reg_syncBroadcastDelta _ maxPayload _
  · rfl

theorem reg_handshake (i : ι) (msg : Message ι) (e : Around ι) :
    (s.handshake k maxPayload i msg e).reg = s.reg := by
  unfold handshake
  dsimp only
  split
  · exact (kept_syncSend _ k maxPayload _ _).1.trans (s.reg_act k i _)
  · exact s.reg_act k i _

theorem talks_syncSend (msgType : Byte) (data : List Byte) :
    Talks s (s.syncSend k maxPayload msgType data).1 := by
  unfold syncSend
  split
  · exact s.talks_sendAll k maxPayload syncCh _
  · exact .refl s

theorem talks_syncSendDeltaTo (since : BitVec 32) : Talks s (s.syncSendDeltaTo k maxPayload since) := by
  have hsent := s.talks_syncSend k maxPayload syncDelta (serializeDelta s.reg since)
  unfold syncSendDeltaTo
  dsimp only
  split
  · exact hsent.trans (talks_note _ k (by simp))
  · exact hsent

theorem talks_broadcastTo (since : BitVec 32) : Talks s (s.broadcastTo k maxPayload since) := by
  unfold broadcastTo
  split
  · split
    · exact s.talks_syncSendDeltaTo k maxPayload _
    · exact .refl s
  · exact .refl s

theorem talks_syncBroadcastDelta (since : BitVec 32) : Talks s (s.syncBroadcastDelta maxPayload since) := by
  unfold syncBroadcastDelta
  induction List.finRange maxPeers generalizing s with
  | nil => exact .refl s
  | cons k slots ih => exact (s.talks_broadcastTo k maxPayload since).trans (ih _)

theorem talks_poll : Talks s (s.poll maxPayload) := by
  unfold poll
  split
  · have hsent := talks_syncBroadcastDelta { s with lastBroadcastVer := s.reg.header.version } maxPayload
      s.lastBroadcastVer
    exact ⟨hsent.world, hsent.slot, hsent.used, hsent.recorded, hsent.heard⟩
  · exact .refl s

variable (crypto : Crypto) (now : I64)

theorem talks_syncApply (data : List Byte) : Talks s (s.syncApply crypto k now data) := by
  unfold syncApply
  split
  · exact .refl s
  · next reg result _ =>
    have hnoted : Talks s (s.note k (.applied data)) := s.talks_note k (by simp)
    exact ⟨hnoted.world, hnoted.slot, hnoted.used, hnoted.recorded, hnoted.heard⟩

theorem talks_syncHandle (msgType : Byte) (data : List Byte) :
    Talks s (s.syncHandle crypto k maxPayload now msgType data) := by
  unfold syncHandle
  split
  · split
    · exact .refl s
    · have hversion := s.talks_modify k (f := .setVersion (Sudp.ntohl (data.take 4))) ⟨rfl, rfl, rfl, .inl rfl⟩
      dsimp only
      split
      · exact hversion.trans (talks_syncSend _ k maxPayload _ _)
      · split
        · exact hversion.trans (talks_syncSendDeltaTo _ k maxPayload _)
        · exact hversion
  · split
    · split
      · exact .refl s
      · exact s.talks_syncSendDeltaTo k maxPayload _
    · split
      · exact s.talks_syncApply k crypto now data
      · split
        · exact s.talks_syncSend k maxPayload _ _
        · split
          · split
            · exact .refl s
            · exact ⟨.refl, fun _ => .refl _, rfl, rfl, fun _ hx _ => hx⟩
          · split
            · exact s.talks_syncSend k maxPayload _ _
            · exact .refl s

theorem talks_recvCb (i : ι) (channel : BitVec 8) (data : List Byte) (reliable : Bool) :
    Talks (s.note k (.heard ⟨i, (s.world.client i).root?, s.world.established i, channel, data⟩
      (s.recorded i))) (s.recvCb crypto k maxPayload now i channel data reliable) := by
  unfold recvCb
  dsimp only
  generalize s.note k (.heard ⟨i, (s.world.client i).root?, s.world.established i, channel, data⟩
      (s.recorded i)) = s
  split
  · have hfed := s.talks_modify k (f := .setReasm (Chunked.reasmFeed (s.peers k).syncReasm data).1)
      ⟨rfl, rfl, rfl, .inl rfl⟩
    split
    · exact hfed.trans (talks_syncHandle _ k maxPayload crypto now _ _)
    · exact hfed
  · split
    · exact s.talks_note k (by simp)
    · exact .refl s

end Sending

section Registrar

variable (crypto : Crypto)

theorem channel_received {i : ι} {d : Datagram ι} {reliable : Bool} {channel : BitVec 8} {data : List Byte}
    (h : s.world.outputs (.deliver i d reliable) = [.received channel data reliable]) :
    (Sudp.payloadOf d.packet)[4]? = some channel := by
  change (Sudp.innerRecvData (s.world.client i) (Sudp.payloadOf d.packet) reliable).2 = _ at h
  unfold Sudp.innerRecvData at h
  split at h
  · cases h
  · next channel' data' hpkt =>
    split at h
    · cases h
    · split at h
      · cases h
      · obtain ⟨rfl, _⟩ := Output.received.inj (List.singleton_inj.mp h)
        rw [← Nat.add_zero 4, ← List.getElem?_drop, hpkt]
        rfl

theorem reg_deliver (i : ι) (maxPayload : ℕ) (now : I64) {d : Datagram ι} (reliable : Bool)
    (h : (Sudp.payloadOf d.packet)[4]? ≠ some syncCh) :
    (s.deliver crypto k maxPayload now i d reliable).reg = s.reg := by
  rcases s.deliver_cases k i crypto maxPayload now d reliable with heq | ⟨channel, data, _, houts, heq⟩
  · rw [heq]
    exact s.reg_act k i _
  · have hchannel : channel ≠ syncCh := fun hsync => h (hsync ▸ s.channel_received houts)
    rw [heq, ← s.reg_act k i (.deliver i d reliable)]
    unfold recvCb
    dsimp only
    rw [if_neg hchannel]
    split <;> rfl

theorem reg_next (self : PeerId) {event : DeskEvent ι} (h : event.writes = false) :
    (s.next crypto self event).reg = s.reg := by
  cases event with
  | dial peerId i =>
    change (s.peerConnect self peerId i).reg = s.reg
    unfold peerConnect
    split
    · rfl
    · split
      · rfl
      · split
        · rfl
        · split <;> rfl
  | slot k event =>
    unfold next
    dsimp only
    split
    · rfl
    · next i _ =>
      cases event with
      | work e => exact s.reg_work k i e
      | handshake msg e maxPayload => exact s.reg_handshake k maxPayload i msg e
      | encrypt flags channel seq payload e => exact s.reg_act k i _
      | decrypt d e => exact s.reg_act k i _
      | deliver d reliable maxPayload now =>
        exact s.reg_deliver k crypto i maxPayload now reliable (of_decide_eq_false h)
      | send maxPayload channel data reliable => exact (s.kept_sendChannel k maxPayload channel data reliable).1
      | free => rfl
  | poll maxPayload => exact s.reg_poll maxPayload
  | mutate m clk => cases h
  | other event => rfl

theorem reg_run (self : PeerId) {events : List (DeskEvent ι)} (h : ∀ event ∈ events, event.writes = false) :
    (events.foldl (next crypto self) s).reg = s.reg := by
  induction events generalizing s with
  | nil => rfl
  | cons event events ih =>
    rw [List.foldl_cons, ih _ fun e he => h e (List.mem_cons_of_mem _ he)]
    exact s.reg_next crypto self (h event List.mem_cons_self)

end Registrar

end Desk

end YumiBrowser.Client

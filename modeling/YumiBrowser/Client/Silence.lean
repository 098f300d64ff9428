import YumiBrowser.Client.PeerBinding

namespace YumiBrowser.Client

open Wire Transition
open YumiBrowser.Group
open Sudp (World Event Around Message Datagram)

variable {ι : Type} [DecidableEq ι]

section Exposure

def Desk.removedAt (s : Desk ι) (k : Fin maxPeers) : Bool := removed s.reg (s.peers k).peerId

def Desk.inUse (s : Desk ι) (k : Fin maxPeers) : Bool :=
  (s.peers k).sudp.any fun i => (s.world.client i).peerActive

def Desk.rekeyed (s t : Desk ι) (k : Fin maxPeers) : Bool :=
  (s.peers k).sudp.any fun i => (t.world.client i).rekeySeed ≠ (s.world.client i).rekeySeed

def DeskEvent.dials (k : Fin maxPeers) : DeskEvent ι → Bool
  | .slot j (.work _) => j = k
  | _ => false

def DeskEvent.crypts (k : Fin maxPeers) : DeskEvent ι → Bool
  | .slot j (.encrypt _ _ _ _ _) => j = k
  | .slot j (.decrypt _ _) => j = k
  | _ => false

structure Watch (ι : Type) where
  desk : Desk ι
  exposed : Fin maxPeers → Bool

def Watch.next (crypto : Crypto) (self : PeerId) (w : Watch ι) (event : DeskEvent ι) : Watch ι :=
  let t := w.desk.next crypto self event
  { desk := t
    exposed := fun k => t.removedAt k &&
      if w.desk.removedAt k then
        event.dials k || w.exposed k && !(event.crypts k && w.desk.rekeyed t k)
      else w.desk.inUse k }

variable (crypto : Crypto) (ident : ι → Identity) (self : Identity) (mine : ι → Prop)

def watchSystem : System (Watch ι) (DeskEvent ι) where
  init w := DeskStarts ident w.desk ∧ ∀ k, w.exposed k = false
  step w e u := DeskEnabled ident self mine w.desk e ∧ u = w.next crypto self.peerId e

variable {crypto ident self mine}

theorem reachable_watch : (deskSystem crypto ident self mine).Reachable s ↔
    ∃ exposed, (watchSystem crypto ident self mine).Reachable ⟨s, exposed⟩ := by
  constructor
  · intro h
    induction h with
    | init hs => exact ⟨fun _ => false, .init ⟨hs, fun _ => rfl⟩⟩
    | @step s event t _ hstep ih =>
      obtain ⟨exposed, hw⟩ := ih
      obtain ⟨hen, rfl⟩ := hstep
      exact ⟨_, .step hw ⟨hen, rfl⟩⟩
  · rintro ⟨exposed, h⟩
    refine System.Reachable.invariant
      (I := fun w : Watch ι => (deskSystem crypto ident self mine).Reachable w.desk) ?_ ?_ h
    · exact fun w hw => .init hw.1
    · rintro w event u _ hw ⟨hen, rfl⟩
      exact .step hw ⟨hen, rfl⟩

/-- Whoever is removed is heard, and sent a delta, only after the session has rekeyed. -/
def Settled (w : Watch ι) (event : DeskEvent ι) : Prop :=
  Named w.desk event ∧
    match event with
    | .slot k (.deliver _ _ _ _) => w.desk.removedAt k = true → w.exposed k = false
    | .poll _ => ∀ k, (w.desk.peers k).state = .connected → w.desk.removedAt k = true →
      w.exposed k = false
    | _ => True

end Exposure

section Slots

variable {s t : Desk ι}

def KeepsSlots (s t : Desk ι) : Prop :=
  ∀ k i, (t.peers k).sudp = some i → (s.peers k).sudp = some i ∧ (t.peers k).peerId = (s.peers k).peerId

omit [DecidableEq ι] in
theorem keepsSlots_refl (s : Desk ι) : KeepsSlots s s := fun _ _ hk => ⟨hk, rfl⟩

theorem Talks.keepsSlots (h : Talks s t) : KeepsSlots s t := by
  intro k i hk
  exact ⟨(h.slot k).sudp ▸ hk, (h.slot k).peerId⟩

theorem keepsSlots_act (s : Desk ι) (k : Fin maxPeers) (i : ι) (event : Event ι) :
    KeepsSlots s (s.act k i event) := by
  intro j i' hj
  obtain ⟨hid, hsudp, _⟩ := (s.acts_act k i event).slot j
  exact ⟨hsudp.symm.trans hj, hid⟩

omit [DecidableEq ι] in
theorem keepsSlots_modify (s : Desk ι) (k : Fin maxPeers) {f : PeerSlot ι → PeerSlot ι}
    (hf : ∀ i, (f (s.peers k)).sudp = some i →
      (s.peers k).sudp = some i ∧ (f (s.peers k)).peerId = (s.peers k).peerId) :
    KeepsSlots s (s.modify k f) := by
  intro j i hj
  have hslot : (s.modify k f).peers j = if j = k then f (s.peers k) else s.peers j :=
    Function.update_apply ..
  rw [hslot] at hj ⊢
  split at hj
  · next hjk =>
    rw [if_pos hjk, hjk]
    exact hf i hj
  · next hjk =>
    rw [if_neg hjk]
    exact ⟨hj, rfl⟩

omit [DecidableEq ι] in
theorem KeepsSlots.trans {u : Desk ι} (h : KeepsSlots s t) (h' : KeepsSlots t u) : KeepsSlots s u := by
  intro k i hk
  obtain ⟨hsudp, hid⟩ := h' k i hk
  obtain ⟨hsudp', hid'⟩ := h k i hsudp
  exact ⟨hsudp', hid.trans hid'⟩

theorem keepsSlots_deliver (s : Desk ι) (k : Fin maxPeers) (i : ι) (crypto : Crypto) (maxPayload : ℕ)
    (now : I64) (d : Datagram ι) (reliable : Bool) :
    KeepsSlots s (s.deliver crypto k maxPayload now i d reliable) := by
  have hact := keepsSlots_act s k i (.deliver i d reliable)
  rcases s.deliver_cases k i crypto maxPayload now d reliable with heq | ⟨channel, data, _, _, heq⟩
  · rw [heq]
    exact hact
  · rw [heq]
    apply hact.trans
    exact (Desk.talks_recvCb _ k maxPayload crypto now i channel data reliable).keepsSlots

theorem keepsSlots_slotNext (s : Desk ι) (k : Fin maxPeers) (i : ι) (crypto : Crypto) (event : SlotEvent ι) :
    KeepsSlots s (s.slotNext crypto k i event) := by
  cases event with
  | work e =>
    change KeepsSlots s (s.work k i e)
    unfold Desk.work
    split
    · exact keepsSlots_refl s
    · refine (keepsSlots_modify s k ?_).trans (keepsSlots_act _ k i _)
      exact fun i hi => ⟨hi, rfl⟩
  | handshake msg e maxPayload =>
    change KeepsSlots s (s.handshake k maxPayload i msg e)
    unfold Desk.handshake
    dsimp only
    split
    · exact (keepsSlots_act s k i _).trans (Desk.talks_syncSend _ k maxPayload _ _).keepsSlots
    · exact keepsSlots_act s k i _
  | encrypt flags channel seq payload e => exact keepsSlots_act s k i _
  | decrypt d e => exact keepsSlots_act s k i _
  | deliver d reliable maxPayload now => exact keepsSlots_deliver s k i crypto maxPayload now d reliable
  | send maxPayload channel data reliable =>
    exact (s.talks_sendChannel k maxPayload channel data reliable).keepsSlots
  | free => exact keepsSlots_modify s k (f := fun _ => .free) fun _ hi => absurd hi (by simp [PeerSlot.free])

theorem keepsSlots_next (crypto : Crypto) (self : PeerId) {event : DeskEvent ι}
    (h : ∀ peerId i, event ≠ .dial peerId i) : KeepsSlots s (s.next crypto self event) := by
  cases event with
  | dial peerId i => exact absurd rfl (h peerId i)
  | slot k event =>
    unfold Desk.next
    dsimp only
    split
    · exact keepsSlots_refl s
    · exact keepsSlots_slotNext s k _ crypto event
  | poll maxPayload => exact (s.talks_poll maxPayload).keepsSlots
  | mutate m clk =>
    unfold Desk.next
    dsimp only
    split <;> exact keepsSlots_refl s
  | other event => exact keepsSlots_refl s

end Slots

section Activity

variable {s : Desk ι} {crypto : Crypto} {ident : ι → Identity} {self : Identity} {mine : ι → Prop}

theorem Desk.Inv.activated {event : SlotEvent ι} {w : Event ι} (hs : s.Inv mine)
    (hen : DeskEnabled ident self mine s (.slot j event)) (hnamed : Named s (.slot j event))
    (hk : (s.peers k).sudp = some i) (hw : s.worldEvent (.slot j event) = some w) (huse : ¬ w.IsUse)
    (hactor : w.actor = some i) (ha : ((s.world.next w).client i).peerActive = true) :
    (s.world.client i).peerActive = true ∨ (s.next crypto self.peerId (.slot j event)).reg = s.reg ∧
      (DeskEvent.dials k (.slot j event) = true ∨ s.removedAt k = false) := by
  obtain ⟨i', hj, hw⟩ := Option.bind_eq_some_iff.mp hw
  have hnext : s.next crypto self.peerId (.slot j event) = s.slotNext crypto j i' event := by
    unfold Desk.next
    dsimp only
    rw [hj]
  rw [hnext]
  cases event with
  | work e =>
    obtain ⟨_, _, rfl⟩ := Option.map_eq_some_iff.mp hw
    cases hactor
    have hjk := hs.apart j k i hj hk
    exact .inr ⟨s.reg_work j i e, .inl (decide_eq_true hjk)⟩
  | handshake msg e maxPayload =>
    cases hw
    cases hactor
    obtain rfl := hs.apart j k i hj hk
    change ((s.world.absorb i _).client i).peerActive = true at ha
    rw [Sudp.client_absorb_self] at ha
    apply (Sudp.active_message ha).imp_right
    rintro ⟨own, h, rfl, hhs, hheeded⟩
    refine ⟨s.reg_handshake j maxPayload i _ e, .inr ?_⟩
    obtain ⟨peer, hfind, hactive⟩ := hheeded.peer
    rw [hnamed i hj h hhs hheeded, (hen i hj).1] at hfind
    unfold Desk.removedAt removed
    rw [hfind, Option.any_some, hactive]
    rfl
  | encrypt flags channel seq payload e =>
    cases hw
    exact absurd trivial huse
  | decrypt d e =>
    cases hw
    exact absurd trivial huse
  | deliver d reliable maxPayload now =>
    cases hw
    exact absurd trivial huse
  | send maxPayload channel data reliable =>
    cases hw
    exact absurd trivial huse
  | free => exact absurd hw (by simp [Desk.sessionEvent])

theorem active_next {event : DeskEvent ι} (hs : s.Inv mine) (hen : DeskEnabled ident self mine s event)
    (hnamed : Named s event) (hk : (s.peers k).sudp = some i)
    (ha : ((s.next crypto self.peerId event).world.client i).peerActive = true) :
    (s.world.client i).peerActive = true ∨ (s.next crypto self.peerId event).reg = s.reg ∧
      (event.dials k = true ∨ s.removedAt k = false) := by
  have hsent := ((s.sends_next crypto self.peerId event).uses.continues i).active ha
  cases hw : s.worldEvent event with
  | none =>
    rw [hw] at hsent
    exact .inl hsent
  | some w =>
    rw [hw] at hsent
    change ((s.world.next w).client i).peerActive = true at hsent
    by_cases huse : w.IsUse
    · exact .inl (((Sudp.uses_next huse).continues i).active hsent)
    · by_cases hactor : w.actor = some i
      · cases event with
        | dial peerId j => exact absurd hw (by simp [Desk.worldEvent])
        | poll maxPayload => exact absurd hw (by simp [Desk.worldEvent])
        | mutate m clk => exact absurd hw (by simp [Desk.worldEvent])
        | other event =>
          cases hw
          exact absurd (hs.held k i hk).1 (hen.1 i hactor)
        | slot j event => exact hs.activated hen hnamed hk hw huse hactor hsent
      · have hframes : Sudp.Frames s.world (s.world.next w) i := by
          refine Sudp.frames_next fun j hj => ?_
          rintro rfl
          exact hactor hj
        rw [hframes.client] at hsent
        exact .inl hsent

omit [DecidableEq ι] in
theorem Desk.Inv.row (hs : s.Inv mine) (hk : (s.peers k).sudp = some i) (hremoved : s.removedAt k = true)
    (ha : (s.world.client i).peerActive = true) :
    ∃ peer, s.reg.peers.find? (s.world.client i).peerId = some peer ∧
      peer.status ≠ PeerStatus.active := by
  rw [(hs.deals k i hk).active ha]
  obtain ⟨peer, hfind, hstatus⟩ := (Option.any_eq_true _ _).mp hremoved
  refine ⟨peer, hfind, fun hactive => ?_⟩
  rw [hactive] at hstatus
  exact absurd hstatus (by decide)

theorem client_encrypt (w : World ι) (i : ι) (flags channel : BitVec 8) (seq : BitVec 32)
    (payload : List Byte) (e : Around ι) : (w.next (.encrypt i flags channel seq payload e)).client i =
      (Sudp.pktEncrypt e (w.client i) (Sudp.buildPacket flags channel seq payload)).1.1 :=
  Sudp.client_absorb_self w i _

theorem client_decrypt (w : World ι) (i : ι) (d : Option (Datagram ι)) (e : Around ι) :
    (w.next (.decrypt i d e)).client i = (Sudp.pktDecrypt e (w.client i) d).1.1 := by
  unfold World.next
  dsimp only
  split <;> exact Sudp.client_absorb_self w i _

theorem rekeyed_next {event : DeskEvent ι} (hs : s.Inv mine) (hen : DeskEnabled ident self mine s event)
    (hk : (s.peers k).sudp = some i) (hremoved : s.removedAt k = true) (hcrypts : event.crypts k = true)
    (ha : ((s.next crypto self.peerId event).world.client i).peerActive = true) :
    s.rekeyed (s.next crypto self.peerId event) k = false := by
  obtain ⟨j, slotEvent, rfl⟩ : ∃ j slotEvent, event = .slot j slotEvent := by
    cases event with
    | slot j slotEvent => exact ⟨j, slotEvent, rfl⟩
    | _ => exact absurd hcrypts (by simp [DeskEvent.crypts])
  have hnext (hj : j = k) :
      s.next crypto self.peerId (.slot j slotEvent) = s.slotNext crypto k i slotEvent := by
    unfold Desk.next
    dsimp only
    rw [hj, hk]
  have hkept {c : Sudp.Client ι} (hseed : c.rekeySeed = (s.world.client i).rekeySeed ∨ c.peerActive = false)
      (hclient : (s.next crypto self.peerId (.slot j slotEvent)).world.client i = c) :
      s.rekeyed (s.next crypto self.peerId (.slot j slotEvent)) k = false := by
    unfold Desk.rekeyed
    rw [hk, Option.any_some, hclient]
    cases hseed with
    | inl hsame => simp [hsame]
    | inr hinactive =>
      rw [hclient, hinactive] at ha
      exact absurd ha (by simp)
  cases slotEvent with
  | encrypt flags channel seq payload e =>
    obtain rfl := of_decide_eq_true hcrypts
    have hclient : (s.next crypto self.peerId (.slot j (.encrypt flags channel seq payload e))).world.client i =
        (Sudp.pktEncrypt e (s.world.client i) (Sudp.buildPacket flags channel seq payload)).1.1 := by
      rw [hnext rfl]
      exact (congrFun (congrArg World.client (s.world_act j i _)) i).trans (client_encrypt ..)
    rw [hclient] at ha
    have hbefore := (Sudp.continues_use (s.world.client i)
      (.encrypt (Sudp.buildPacket flags channel seq payload) e)).active ha
    obtain ⟨peer, hrow, hstatus⟩ := hs.row hk hremoved hbefore
    rw [← (hen i hk).1] at hrow
    exact hkept (Sudp.inactive_pktEncrypt hrow hstatus _) hclient
  | decrypt d e =>
    obtain rfl := of_decide_eq_true hcrypts
    have hclient : (s.next crypto self.peerId (.slot j (.decrypt d e))).world.client i =
        (Sudp.pktDecrypt e (s.world.client i) d).1.1 := by
      rw [hnext rfl]
      exact (congrFun (congrArg World.client (s.world_act j i _)) i).trans (client_decrypt ..)
    rw [hclient] at ha
    obtain ⟨peer, hrow, hstatus⟩ := hs.row hk hremoved
      ((Sudp.continues_use (s.world.client i) (.decrypt d e)).active ha)
    rw [← (hen i hk).1] at hrow
    exact hkept (Sudp.inactive_pktDecrypt hrow hstatus d) hclient
  | _ => exact absurd hcrypts (by simp [DeskEvent.crypts])

end Activity

section Log

variable {s t : Desk ι} {k : Fin maxPeers}

def Desk.Clean (s : Desk ι) : Prop := ∀ x ∈ s.log, x.removed = false

def Desk.Mute (s : Desk ι) (k : Fin maxPeers) : Prop :=
  (s.peers k).state = .connected → s.removedAt k = true → s.inUse k = false

omit [DecidableEq ι] in
theorem Desk.Clean.of_log (hs : s.Clean) (hlog : t.log = s.log) : t.Clean := by
  unfold Desk.Clean
  rw [hlog]
  exact hs

omit [DecidableEq ι] in
theorem Desk.Clean.note (hs : s.Clean) (hk : s.removedAt k = false) (what : Passage ι) :
    (s.note k what).Clean := by
  intro x hx
  cases hx with
  | head => exact hk
  | tail _ hx => exact hs x hx

theorem log_act (s : Desk ι) (k : Fin maxPeers) (i : ι) (event : Event ι) : (s.act k i event).log = s.log := by
  rw [(s.acts_act k i event).rest]

omit [DecidableEq ι] in
theorem removedAt_congr (hreg : t.reg = s.reg) (hid : (t.peers k).peerId = (s.peers k).peerId) :
    t.removedAt k = s.removedAt k := by
  unfold Desk.removedAt
  rw [hreg, hid]

theorem inUse_of_talks (h : Talks s t) (hk : s.inUse k = false) : t.inUse k = false := by
  unfold Desk.inUse at hk ⊢
  rw [(h.slot k).sudp]
  cases hsudp : (s.peers k).sudp with
  | none => rfl
  | some i =>
    rw [hsudp] at hk
    cases hactive : (t.world.client i).peerActive with
    | false => exact hactive
    | true => exact absurd ((h.world.uses.continues i).active hactive) (by simpa using hk)

theorem Desk.Mute.talks (hs : s.Mute k) (h : Talks s t) (hreg : t.reg = s.reg) : t.Mute k := by
  intro hstate hremoved
  rw [removedAt_congr hreg (h.slot k).peerId] at hremoved
  exact inUse_of_talks h (hs ((h.slot k).connected hstate) hremoved)

omit [DecidableEq ι] in
theorem outputs_encryptSend_inactive {c : Sudp.Client ι} (h : c.peerActive = false) (maxPayload : ℕ)
    (channel : BitVec 8) (data : List Byte) (reliable : Bool) :
    (Sudp.encryptSend maxPayload c channel data reliable).2.any Sudp.Output.isQueued = false := by
  unfold Sudp.encryptSend
  split
  · rfl
  · rw [if_pos (by simp [h])]
    rfl

variable (maxPayload : ℕ)

theorem refused_sendAll (hk : s.inUse k = false) (channel : BitVec 8) (pkts : List (List Byte)) :
    (s.sendAll k maxPayload channel pkts).2 = false := by
  cases pkts with
  | nil => rfl
  | cons pkt rest =>
    have hrefused : (s.sendChannel k maxPayload channel pkt true).2 = false := by
      unfold Desk.sendChannel
      unfold Desk.inUse at hk
      cases hsudp : (s.peers k).sudp with
      | none => rfl
      | some i =>
        rw [hsudp] at hk
        exact outputs_encryptSend_inactive hk maxPayload channel pkt true
    unfold Desk.sendAll
    dsimp only
    rw [if_neg (by simp [hrefused])]

theorem refused_syncSend (hk : s.Mute k) (hremoved : s.removedAt k = true) (msgType : Byte)
    (data : List Byte) : (s.syncSend k maxPayload msgType data).2 = false := by
  unfold Desk.syncSend
  split
  · next hstate => exact refused_sendAll maxPayload (hk hstate hremoved) syncCh _
  · rfl

theorem clean_syncSendDeltaTo (hs : s.Clean) (hk : s.Mute k) (since : BitVec 32) :
    (s.syncSendDeltaTo k maxPayload since).Clean := by
  obtain ⟨hreg, hlog⟩ := s.kept_syncSend k maxPayload syncDelta (serializeDelta s.reg since)
  have hslot := (s.talks_syncSend k maxPayload syncDelta (serializeDelta s.reg since)).slot k
  unfold Desk.syncSendDeltaTo
  dsimp only
  split
  · next hsent =>
    refine Desk.Clean.note (hs.of_log hlog) ?_ _
    rw [removedAt_congr hreg hslot.peerId]
    cases hremoved : s.removedAt k with
    | false => rfl
    | true =>
      rw [refused_syncSend maxPayload hk hremoved] at hsent
      exact absurd hsent (by simp)
  · exact hs.of_log hlog

theorem clean_broadcastTo (hs : s.Clean) (hk : s.Mute k) (since : BitVec 32) :
    (s.broadcastTo k maxPayload since).Clean := by
  unfold Desk.broadcastTo
  split
  · split
    · exact clean_syncSendDeltaTo maxPayload hs hk _
    · exact hs
  · exact hs

theorem clean_syncBroadcastDelta (hs : s.Clean) (hmute : ∀ k, s.Mute k) (since : BitVec 32) :
    (s.syncBroadcastDelta maxPayload since).Clean := by
  unfold Desk.syncBroadcastDelta
  induction List.finRange maxPeers generalizing s with
  | nil => exact hs
  | cons k slots ih =>
    refine ih (clean_broadcastTo maxPayload hs (hmute k) since) fun j => ?_
    exact (hmute j).talks (s.talks_broadcastTo k maxPayload since) (s.reg_broadcastTo k maxPayload since)

theorem clean_poll (hs : s.Clean) (hmute : ∀ k, s.Mute k) : (s.poll maxPayload).Clean := by
  unfold Desk.poll
  split
  · exact clean_syncBroadcastDelta (s := { s with lastBroadcastVer := s.reg.header.version }) maxPayload hs
      hmute _
  · exact hs

variable (crypto : Crypto) (now : I64)

omit [DecidableEq ι] in
theorem clean_syncApply (hs : s.Clean) (hk : s.removedAt k = false) (data : List Byte) :
    (s.syncApply crypto k now data).Clean := by
  unfold Desk.syncApply
  split
  · exact hs
  · exact hs.note hk _

theorem clean_syncHandle (hs : s.Clean) (hk : s.removedAt k = false) (msgType : Byte) (data : List Byte) :
    (s.syncHandle crypto k maxPayload now msgType data).Clean := by
  have hmute : s.Mute k := fun _ hremoved => absurd (hk.symm.trans hremoved) (by simp)
  have hsent {t : Desk ι} (ht : t.Clean) (msgType : Byte) (data : List Byte) :
      (t.syncSend k maxPayload msgType data).1.Clean := ht.of_log (t.kept_syncSend k maxPayload _ _).2
  unfold Desk.syncHandle
  split
  · split
    · exact hs
    · have hversion := s.talks_modify k (f := .setVersion (Sudp.ntohl (data.take 4))) ⟨rfl, rfl, rfl, .inl rfl⟩
      have hkept : (s.modify k (.setVersion (Sudp.ntohl (data.take 4)))).Clean := hs
      dsimp only
      split
      · exact hsent hkept _ _
      · split
        · exact clean_syncSendDeltaTo maxPayload hkept (hmute.talks hversion rfl) _
        · exact hkept
  · split
    · split
      · exact hs
      · exact clean_syncSendDeltaTo maxPayload hs hmute _
    · split
      · exact clean_syncApply crypto now hs hk data
      · split
        · exact hsent hs _ _
        · split
          · split
            · exact hs
            · exact hs
          · split
            · exact hsent hs _ _
            · exact hs

theorem clean_recvCb (hs : s.Clean) (hk : s.removedAt k = false) (i : ι) (channel : BitVec 8)
    (data : List Byte) (reliable : Bool) :
    (s.recvCb crypto k maxPayload now i channel data reliable).Clean := by
  have hnoted := hs.note hk (.heard ⟨i, (s.world.client i).root?, s.world.established i, channel, data⟩
    (s.recorded i))
  have hremoved : (s.note k (.heard ⟨i, (s.world.client i).root?, s.world.established i, channel, data⟩
    (s.recorded i))).removedAt k = false := hk
  unfold Desk.recvCb
  dsimp only
  generalize s.note k (.heard ⟨i, (s.world.client i).root?, s.world.established i, channel, data⟩
    (s.recorded i)) = s at hnoted hremoved ⊢
  split
  · have hfed := s.talks_modify k (f := .setReasm (Chunked.reasmFeed (s.peers k).syncReasm data).1)
      ⟨rfl, rfl, rfl, .inl rfl⟩
    have hkept : (s.modify k (.setReasm (Chunked.reasmFeed (s.peers k).syncReasm data).1)).Clean := hnoted
    split
    · refine clean_syncHandle maxPayload crypto now hkept ?_ _ _
      have hsame := removedAt_congr (s := s) (k := k)
        (t := s.modify k (.setReasm (Chunked.reasmFeed (s.peers k).syncReasm data).1)) rfl
        (hfed.slot k).peerId
      exact hsame.trans hremoved
    · exact hkept
  · split
    · exact hnoted.note hremoved _
    · exact hnoted

end Log

section Invariant

variable {crypto : Crypto} {ident : ι → Identity} {self : Identity} {mine : ι → Prop} {w : Watch ι}

structure Watch.Inv (mine : ι → Prop) (w : Watch ι) : Prop where
  desk : w.desk.Inv mine
  exposed : ∀ k, w.desk.removedAt k = true → w.desk.inUse k = true → w.exposed k = true
  clean : w.desk.Clean

omit [DecidableEq ι] in
theorem Watch.Inv.idle (hw : w.Inv mine) (hremoved : w.desk.removedAt k = true) (hk : w.exposed k = false) :
    w.desk.inUse k = false := by
  cases huse : w.desk.inUse k with
  | false => rfl
  | true => exact absurd (hk.symm.trans (hw.exposed k hremoved huse)) (by simp)

omit [DecidableEq ι] in
theorem peerConnect_cases (s : Desk ι) (self peerId : PeerId) (i : ι) [DecidableEq ι] :
    s.peerConnect self peerId i = s ∨ ∃ k, s.peerConnect self peerId i = s.occupy k peerId i := by
  unfold Desk.peerConnect
  split
  · exact .inl rfl
  · split
    · exact .inl rfl
    · split
      · exact .inl rfl
      · next k _ =>
        split
        · exact .inr ⟨k, rfl⟩
        · exact .inl rfl

theorem slot_next {s : Desk ι} {event : DeskEvent ι} (hen : DeskEnabled ident self mine s event)
    (hk : ((s.next crypto self.peerId event).peers k).sudp = some i)
    (ha : ((s.next crypto self.peerId event).world.client i).peerActive = true) :
    (s.peers k).sudp = some i ∧
      ((s.next crypto self.peerId event).peers k).peerId = (s.peers k).peerId := by
  by_cases hdial : ∃ peerId j, event = .dial peerId j
  · obtain ⟨peerId, j, rfl⟩ := hdial
    obtain ⟨_, _, _, _, _, hnew⟩ := hen
    obtain ⟨epoch, _, hfresh⟩ := Option.map_eq_some_iff.mp hnew
    have hinactive : (s.world.client j).peerActive = false := by
      rw [← hfresh]
    cases peerConnect_cases s self.peerId peerId j with
    | inl hsame =>
      change ((s.peerConnect self.peerId peerId j).peers k).sudp = some i at hk
      change _ ∧ ((s.peerConnect self.peerId peerId j).peers k).peerId = _
      rw [hsame] at hk ⊢
      exact ⟨hk, rfl⟩
    | inr hoccupied =>
      obtain ⟨k', hoccupied⟩ := hoccupied
      change ((s.peerConnect self.peerId peerId j).peers k).sudp = some i at hk
      change ((s.peerConnect self.peerId peerId j).world.client i).peerActive = true at ha
      change _ ∧ ((s.peerConnect self.peerId peerId j).peers k).peerId = _
      have hslot : (s.occupy k' peerId j).peers k = if k = k' then .dialed peerId j else s.peers k :=
        Function.update_apply ..
      rw [hoccupied] at hk ha ⊢
      rw [hslot] at hk ⊢
      split at hk
      · cases hk
        exact absurd (hinactive.symm.trans ha) (by simp)
      · next hne =>
        rw [if_neg hne]
        exact ⟨hk, rfl⟩
  · exact keepsSlots_next crypto self.peerId (fun peerId j heq => hdial ⟨peerId, j, heq⟩) k i hk

theorem exposed_next {event : DeskEvent ι} (hw : w.Inv mine)
    (hen : DeskEnabled ident self mine w.desk event) (hnamed : Named w.desk event) (k : Fin maxPeers)
    (hremoved : (w.next crypto self.peerId event).desk.removedAt k = true)
    (huse : (w.next crypto self.peerId event).desk.inUse k = true) :
    (w.next crypto self.peerId event).exposed k = true := by
  obtain ⟨i, hk, ha⟩ := (Option.any_eq_true _ _).mp huse
  obtain ⟨hbefore, hid⟩ := slot_next hen hk ha
  have hactive := active_next hw.desk hen hnamed hbefore ha
  have hinUse (hi : (w.desk.world.client i).peerActive = true) : w.desk.inUse k = true := by
    unfold Desk.inUse
    rw [hbefore]
    exact hi
  change (Desk.removedAt _ k && _) = true
  rw [show (w.desk.next crypto self.peerId event).removedAt k = true from hremoved, Bool.true_and]
  split
  · next hold =>
    rw [Bool.or_eq_true]
    rcases hactive with hi | ⟨_, hdials | hkept⟩
    · refine .inr ?_
      rw [hw.exposed k hold (hinUse hi), Bool.true_and]
      cases hcrypts : event.crypts k with
      | false => rfl
      | true =>
        rw [rekeyed_next hw.desk hen hbefore hold hcrypts ha]
        rfl
    · exact .inl hdials
    · exact absurd (hold.symm.trans hkept) (by simp)
  · next hnew =>
    cases hactive with
    | inl hi => exact hinUse hi
    | inr hkept => exact absurd ((removedAt_congr hkept.1 hid).symm.trans hremoved) hnew

theorem clean_slotNext {s : Desk ι} (hs : s.Clean) (k : Fin maxPeers) (i : ι) (event : SlotEvent ι)
    (hdeliver : ∀ d reliable maxPayload now, event = .deliver d reliable maxPayload now →
      (s.world.client i).peerActive = true → s.removedAt k = false) :
    (s.slotNext crypto k i event).Clean := by
  have hact (event : Event ι) : (s.act k i event).Clean := hs.of_log (log_act s k i event)
  cases event with
  | work e =>
    change (s.work k i e).Clean
    unfold Desk.work
    split
    · exact hs
    · exact hs.of_log (log_act _ k i _)
  | handshake msg e maxPayload =>
    change (s.handshake k maxPayload i msg e).Clean
    unfold Desk.handshake
    dsimp only
    split
    · exact (hact _).of_log (Desk.kept_syncSend _ k maxPayload _ _).2
    · exact hact _
  | encrypt flags channel seq payload e => exact hact _
  | decrypt d e => exact hact _
  | deliver d reliable maxPayload now =>
    change (s.deliver crypto k maxPayload now i d reliable).Clean
    rcases s.deliver_cases k i crypto maxPayload now d reliable with heq | ⟨channel, data, hactive, _, heq⟩
    · rw [heq]
      exact hact _
    · rw [heq]
      refine clean_recvCb maxPayload crypto now (hact _) ?_ i channel data reliable
      have hkept := removedAt_congr (s.reg_act k i (.deliver i d reliable))
        ((s.acts_act k i (.deliver i d reliable)).slot k).1
      exact hkept.trans (hdeliver d reliable maxPayload now rfl hactive)
  | send maxPayload channel data reliable =>
    change (s.sendChannel k maxPayload channel data reliable).1.Clean
    unfold Desk.sendChannel
    split
    · exact hs
    · next i' _ => exact hs.of_log (log_act s k i' _)
  | free => exact hs

theorem clean_next {event : DeskEvent ι} (hw : w.Inv mine)
    (hen : DeskEnabled ident self mine w.desk event) (hsettled : Settled w event) :
    (w.next crypto self.peerId event).desk.Clean := by
  change (w.desk.next crypto self.peerId event).Clean
  cases event with
  | dial peerId i =>
    change (w.desk.peerConnect self.peerId peerId i).Clean
    rcases peerConnect_cases w.desk self.peerId peerId i with heq | ⟨k, heq⟩
    · rw [heq]
      exact hw.clean
    · rw [heq]
      exact hw.clean
  | slot k event =>
    unfold Desk.next
    dsimp only
    split
    · exact hw.clean
    · next i hk =>
      apply clean_slotNext hw.clean k i event
      rintro d reliable maxPayload now rfl hactive
      cases hremoved : w.desk.removedAt k with
      | false => rfl
      | true =>
        have hidle := hw.idle hremoved (hsettled.2 hremoved)
        unfold Desk.inUse at hidle
        rw [hk, Option.any_some, hactive] at hidle
        exact absurd hidle (by simp)
  | poll maxPayload =>
    refine clean_poll maxPayload hw.clean fun k hstate hremoved => ?_
    exact hw.idle hremoved (hsettled.2 k hstate hremoved)
  | mutate m clk =>
    unfold Desk.next
    dsimp only
    split <;> exact hw.clean
  | other event => exact hw.clean

theorem Watch.Inv.next {event : DeskEvent ι} (hw : w.Inv mine)
    (hen : DeskEnabled ident self mine w.desk event) (hsettled : Settled w event) :
    (w.next crypto self.peerId event).Inv mine where
  desk := hw.desk.next hen hsettled.1
  exposed := exposed_next hw hen hsettled.1
  clean := clean_next hw hen hsettled

/-- In a run whose slots take no HELLO but that of their peer, and where a session of a removed peer
has rekeyed before it is heard or sent to, nothing passes between the client and a removed peer. -/
theorem removed_silenced (h : ((watchSystem crypto ident self mine).restrict Settled).Reachable w) :
    ∀ x ∈ w.desk.log, x.removed = false := by
  have hw : w.Inv mine := by
    refine System.Reachable.invariant (I := fun w : Watch ι => w.Inv mine) ?_ ?_ h
    · intro w hw
      refine ⟨inv_deskStarts hw.1, fun k _ huse => ?_, fun x hx => ?_⟩
      · rw [Desk.inUse, hw.1.peers] at huse
        exact absurd huse (by simp [PeerSlot.free])
      · rw [hw.1.log] at hx
        exact absurd hx List.not_mem_nil
    · rintro w event u _ hw ⟨hsettled, hen, rfl⟩
      exact hw.next hen hsettled
  exact hw.clean

end Invariant

section Kicks

open Sudp (pairIdentity pairRegistrar)

def Untouched (s : Desk ι) (event : DeskEvent ι) : Prop := Named s event ∧ ∀ k, s.removedAt k = false

theorem watch_untouched {crypto : Crypto} {ident : ι → Identity} {self : Identity} {mine : ι → Prop} {s : Desk ι}
    (h : ((deskSystem crypto ident self mine).restrict Untouched).Reachable s) :
    ∃ exposed, ((watchSystem crypto ident self mine).restrict Settled).Reachable ⟨s, exposed⟩ := by
  induction h with
  | init hs => exact ⟨fun _ => false, .init ⟨hs, fun _ => rfl⟩⟩
  | @step s event t _ hstep ih =>
    obtain ⟨exposed, hw⟩ := ih
    obtain ⟨⟨hnamed, hfree⟩, hen, rfl⟩ := hstep
    refine ⟨_, .step hw ⟨⟨hnamed, ?_⟩, hen, rfl⟩⟩
    have hnone (k : Fin maxPeers) : s.removedAt k ≠ true := fun hremoved =>
      absurd ((hfree k).symm.trans hremoved) (by simp)
    cases event with
    | slot k event =>
      cases event with
      | deliver d reliable maxPayload now => exact fun hremoved => absurd hremoved (hnone k)
      | _ => trivial
    | poll maxPayload => exact fun k _ hremoved => absurd hremoved (hnone k)
    | _ => trivial

def kick : DeskEvent Bool := .mutate (.peerKick (member 2).peerId none (member 1)) ⟨5, 5000000⟩

def kickedPair : Registrar :=
  (peerKick callCrypto pairRegistrar (member 2).peerId none (member 1) ⟨5, 5000000⟩).toOption.getD
    pairRegistrar

theorem kick_trace : (peerKick callCrypto pairRegistrar (member 2).peerId none (member 1)
      ⟨5, 5000000⟩).toOption.isSome = true ∧ removed kickedPair (member 2).peerId = true ∧
    ∀ p ∈ pairRegistrar.peers.rows, p.status = PeerStatus.active := by decide +kernel

theorem kick_ok :
    peerKick callCrypto pairRegistrar (member 2).peerId none (member 1) ⟨5, 5000000⟩ = .ok kickedPair := by
  have hok := kick_trace.1
  unfold kickedPair
  cases hkick : peerKick callCrypto pairRegistrar (member 2).peerId none (member 1) ⟨5, 5000000⟩ with
  | error _ =>
    rw [hkick] at hok
    exact absurd hok Bool.false_ne_true
  | ok reg => rfl

theorem next_kick {s : Desk Bool} (h : s.reg = pairRegistrar) :
    s.next callCrypto (member 1).peerId kick = { s with reg := kickedPair } := by
  have hrun : Mutation.run callCrypto s.reg ⟨5, 5000000⟩ (.peerKick (member 2).peerId none (member 1)) =
      .ok kickedPair := by
    rw [h]
    exact kick_ok
  unfold kick Desk.next
  dsimp only
  rw [hrun]

theorem pair_untouched {s : Desk Bool} {event : DeskEvent Bool} (h : Guided s event) : Untouched s event := by
  refine ⟨h.1.1, fun k => ?_⟩
  unfold Desk.removedAt removed
  rw [h.2]
  cases hrow : pairRegistrar.peers.find? (s.peers k).peerId with
  | none => rfl
  | some p =>
    have hactive := kick_trace.2.2 p (Keyed.Table.mem_of_find? hrow)
    rw [Option.any_some, hactive]
    rfl

theorem log_kick {w : Watch Bool} (h : w.desk.reg = pairRegistrar) :
    (w.next callCrypto (member 1).peerId kick).desk.log = w.desk.log := by
  change (w.desk.next callCrypto (member 1).peerId kick).log = w.desk.log
  rw [next_kick h]

theorem removedAt_kick {w : Watch Bool} (h : w.desk.reg = pairRegistrar)
    (hk : (w.desk.peers k).peerId = (member 2).peerId) :
    (w.next callCrypto (member 1).peerId kick).desk.removedAt k = true := by
  change (w.desk.next callCrypto (member 1).peerId kick).removedAt k = true
  rw [next_kick h]
  change removed kickedPair (w.desk.peers k).peerId = true
  rw [hk]
  exact kick_trace.2.1

theorem reachable_kick {w : Watch Bool}
    (h : ((watchSystem callCrypto pairIdentity (member 1) (· = true)).restrict Settled).Reachable w) :
    ((watchSystem callCrypto pairIdentity (member 1) (· = true)).restrict Settled).Reachable
      (w.next callCrypto (member 1).peerId kick) :=
  .step (e := kick) h ⟨⟨trivial, trivial⟩, trivial, rfl⟩

theorem removed_silenced_kick : ∃ w : Watch Bool, w.desk.log ≠ [] ∧ w.desk.removedAt 0 = true ∧
    ∀ x ∈ w.desk.log, x.removed = false := by
  obtain ⟨s, hs, hreg, hpeer, hlog⟩ : ∃ s, (callSystem.restrict Untouched).Reachable s ∧
      s.reg = pairRegistrar ∧ (s.peers 0).peerId = (member 2).peerId ∧ s.log ≠ [] :=
    ⟨callAt 9, call_reachable.restrict_mono fun _ _ => pair_untouched, call_registrar 9, call_peer, call_heard⟩
  obtain ⟨exposed, hw⟩ := watch_untouched hs
  refine ⟨_, ?_, removedAt_kick hreg hpeer, removed_silenced (reachable_kick hw)⟩
  rw [log_kick hreg]
  exact hlog

theorem reachable_event {s : Desk Bool} {event : DeskEvent Bool} (h : callSystem.Reachable s)
    (hen : DeskEnabled pairIdentity (member 1) (· = true) s event) :
    callSystem.Reachable (s.next callCrypto (member 1).peerId event) :=
  .step h ⟨hen, rfl⟩

def kickedCall : Desk Bool := { callAt 8 with reg := kickedPair }

theorem kickedCall_trace : (kickedCall.peers 0).sudp = some true ∧
    kickedCall.world.held = [(true, userDatagram)] ∧
    ((kickedCall.next callCrypto (member 1).peerId (.slot 0 (.deliver userDatagram true 0 0))).log.map
      Logged.removed) = [true, true] := by decide +kernel

-- A kick does not reach the session of the kicked peer: `on_message` is called with what comes next.
theorem kicked_heard : ¬ ∀ (crypto : Crypto) (ident : Bool → Identity) (self : Identity) (mine : Bool → Prop)
    (s : Desk Bool), (deskSystem crypto ident self mine).Reachable s → ∀ x ∈ s.log, x.removed = false := by
  intro h
  have hnext : (callAt 8).next callCrypto (member 1).peerId kick = kickedCall :=
    next_kick (call_registrar 8)
  have hkicked : callSystem.Reachable kickedCall := by
    have hkick : callSystem.Reachable ((callAt 8).next callCrypto (member 1).peerId kick) :=
      reachable_event call_decrypted.of_restrict trivial
    rw [← hnext]
    exact hkick
  have hen : DeskEnabled pairIdentity (member 1) (· = true) kickedCall
      (.slot 0 (.deliver userDatagram true 0 0)) := by
    refine enabled_slot kickedCall_trace.1 ⟨?_, by decide, by decide⟩
    rw [kickedCall_trace.2.1]
    exact List.mem_singleton_self _
  have hreach : callSystem.Reachable (kickedCall.next callCrypto (member 1).peerId
      (.slot 0 (.deliver userDatagram true 0 0))) := reachable_event hkicked hen
  have hheard := h callCrypto pairIdentity (member 1) (· = true) _ hreach
  have hmem : true ∈ (kickedCall.next callCrypto (member 1).peerId
      (.slot 0 (.deliver userDatagram true 0 0))).log.map Logged.removed := by
    rw [kickedCall_trace.2.2]
    exact List.mem_cons_self ..
  obtain ⟨x, hx, hremoved⟩ := List.mem_map.mp hmem
  exact absurd ((hheard x hx).symm.trans hremoved) Bool.false_ne_true

end Kicks

end YumiBrowser.Client

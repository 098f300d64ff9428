import YumiBrowser.Client.Chunks
import YumiBrowser.Network.SessionFrames
import YumiBrowser.Registrar.FullSync
import YumiBrowser.Registrar.Replicas

namespace YumiBrowser.Client

open Wire Transition
open YumiBrowser.Group
open Chunked (Reasm reasmFeed chunkStart putU32 continuations)
open Sudp (World Event Around Output Received Message Datagram htonl ntohl)

/-- `YUMI_CLIENT_MAX_PEERS` -/
abbrev maxPeers : ℕ := 64

instance : NeZero maxPeers := ⟨Nat.succ_ne_zero 63⟩

def syncCh : BitVec 8 := 0
def userCh : BitVec 8 := 2
def attestCh : BitVec 8 := 254

def syncVersion : Byte := 0x01
def syncDeltaReq : Byte := 0x02
def syncDelta : Byte := 0x03
def syncFullReq : Byte := 0x04
def syncFull : Byte := 0x05
def syncPing : Byte := 0x06
def syncPong : Byte := 0x07

/-- The packets of `chunked_send`, for a session that takes `maxPl` bytes at once. -/
def chunks (maxPl : ℕ) (msgType : Byte) (data : List Byte) : List (List Byte) :=
  if maxPl < 10 then []
  else if data.length + 1 ≤ maxPl then [msgType :: data]
  else
    (chunkStart :: msgType :: putU32 data.length ++ data.take (maxPl - 6)) ::
      continuations maxPl (data.drop (maxPl - 6))

inductive SlotState
  | free
  | signaling
  | connecting
  | connected
  | failed
  deriving DecidableEq

/-- `peer_slot_t`, with what `yumi_sudp_client_connect` has posted to the worker of the session. -/
structure PeerSlot (ι : Type) where
  peerId : PeerId
  sudp : Option ι
  state : SlotState
  remoteVersion : BitVec 32
  syncReasm : Reasm
  posted : Option PeerId

namespace PeerSlot

variable {ι : Type}

/-- `slot_free` -/
def free : PeerSlot ι where
  peerId := zeroBytes 32
  sudp := none
  state := .free
  remoteVersion := 0
  syncReasm := .reset
  posted := none

/-- A slot that `peer_connect` fills. -/
def dialed (peerId : PeerId) (i : ι) : PeerSlot ι where
  peerId := peerId
  sudp := some i
  state := .connecting
  remoteVersion := 0
  syncReasm := .reset
  posted := some peerId

def setState (state : SlotState) (s : PeerSlot ι) : PeerSlot ι := { s with state }

def setVersion (remoteVersion : BitVec 32) (s : PeerSlot ι) : PeerSlot ι := { s with remoteVersion }

def setReasm (syncReasm : Reasm) (s : PeerSlot ι) : PeerSlot ι := { s with syncReasm }

def taken (s : PeerSlot ι) : PeerSlot ι := { s with posted := none }

end PeerSlot

inductive Passage (ι : Type)
  -- `sudp_recv_cb` is called, in a session completed under a key that was recorded for its peer
  | heard (item : Received ι) (key : Option PublicKey)
  -- `on_message` is called
  | message (channel : BitVec 8) (data : List Byte) (reliable : Bool)
  -- `gr_apply_delta` takes a delta
  | applied (data : List Byte)
  -- a delta is sent
  | delta (data : List Byte)

structure Logged (ι : Type) where
  peerId : PeerId
  removed : Bool
  what : Passage ι

/-- `yumi_client_t`, in a world of sessions of its own and of others. `used` are the sessions it has
created, `recorded` is the key that the registrar had for the peer of a session when that session
became ESTABLISHED. -/
structure Desk (ι : Type) where
  world : World ι
  reg : Registrar
  peers : Fin maxPeers → PeerSlot ι
  lastBroadcastVer : BitVec 32
  used : ι → Bool
  recorded : ι → Option PublicKey
  log : List (Logged ι)

def removed (reg : Registrar) (peerId : PeerId) : Bool :=
  (reg.peers.find? peerId).any fun p => p.status = PeerStatus.kicked ∨ p.status = PeerStatus.banned

namespace Desk

variable {ι : Type} [DecidableEq ι]

section Slots

variable (s : Desk ι) (k : Fin maxPeers)

def modify (f : PeerSlot ι → PeerSlot ι) : Desk ι :=
  { s with peers := Function.update s.peers k (f (s.peers k)) }

def note (what : Passage ι) : Desk ι :=
  { s with log := ⟨(s.peers k).peerId, removed s.reg (s.peers k).peerId, what⟩ :: s.log }

/-- `slot_find` -/
def slotFind (peerId : PeerId) : Option (Fin maxPeers) :=
  (List.finRange maxPeers).find? fun k => (s.peers k).state ≠ .free ∧ (s.peers k).peerId = peerId

/-- `slot_alloc` -/
def slotAlloc : Option (Fin maxPeers) :=
  (List.finRange maxPeers).find? fun k => (s.peers k).state = .free

def duplicate : Bool :=
  (List.finRange maxPeers).any fun j =>
    j ≠ k ∧ (s.peers j).state = .connected ∧ (s.peers j).peerId = (s.peers k).peerId

def establish (i : ι) : Desk ι :=
  { s.modify k (.setState (if s.duplicate k then .failed else .connected)) with
    recorded := Function.update s.recorded i
      ((s.reg.peers.find? (s.peers k).peerId).map Peer.signKey) }

/-- `sudp_state_cb`, up to what it sends. -/
def stateCb (i : ι) : Output ι → Desk ι
  | .state .established => s.establish k i
  | .state .failed => s.modify k (.setState .failed)
  | _ => s

def act (i : ι) (event : Event ι) : Desk ι :=
  (s.world.outputs event).foldl (fun s out => s.stateCb k i out)
    { s with world := s.world.next event }

end Slots

section Sending

variable (k : Fin maxPeers) (maxPayload : ℕ)

def sendChannel (s : Desk ι) (channel : BitVec 8) (data : List Byte) (reliable : Bool) :
    Desk ι × Bool :=
  match (s.peers k).sudp with
  | none => (s, false)
  | some i =>
    let event := Event.send i maxPayload channel data reliable
    (s.act k i event, (s.world.outputs event).any Output.isQueued)

def sendAll (s : Desk ι) (channel : BitVec 8) : List (List Byte) → Desk ι × Bool
  | [] => (s, false)
  | pkt :: rest =>
    let sent := s.sendChannel k maxPayload channel pkt true
    if sent.2 then ((sendAll sent.1 channel rest).1, true) else (sent.1, false)

/-- `chunked_send`; a session takes five bytes less than the transport under it. -/
def chunkedSend (s : Desk ι) (channel : BitVec 8) (msgType : Byte) (data : List Byte) :
    Desk ι × Bool :=
  s.sendAll k maxPayload channel (chunks (maxPayload - 5) msgType data)

def syncSend (s : Desk ι) (msgType : Byte) (data : List Byte) : Desk ι × Bool :=
  if (s.peers k).state = .connected then s.chunkedSend k maxPayload syncCh msgType data
  else (s, false)

def syncSendVersion (s : Desk ι) : Desk ι :=
  (s.syncSend k maxPayload syncVersion (htonl s.reg.header.version)).1

def syncRequestDelta (s : Desk ι) : Desk ι :=
  (s.syncSend k maxPayload syncDeltaReq (htonl s.reg.header.version)).1

def syncSendDeltaTo (s : Desk ι) (since : BitVec 32) : Desk ι :=
  let data := serializeDelta s.reg since
  let sent := s.syncSend k maxPayload syncDelta data
  if sent.2 then sent.1.note k (.delta data) else sent.1

def syncSendFull (s : Desk ι) : Desk ι :=
  (s.syncSend k maxPayload syncFull (grSerialize s.reg .full)).1

/-- One slot of `sync_broadcast_delta`. -/
def broadcastTo (since : BitVec 32) (s : Desk ι) : Desk ι :=
  if (s.peers k).state = .connected ∧ (s.peers k).sudp.isSome then
    if (s.peers k).remoteVersion < since ∨ (s.peers k).remoteVersion = 0 then
      s.syncSendDeltaTo k maxPayload (s.peers k).remoteVersion
    else s
  else s

omit k

def syncBroadcastDelta (s : Desk ι) (since : BitVec 32) : Desk ι :=
  (List.finRange maxPeers).foldl (fun s k => s.broadcastTo k maxPayload since) s

/-- The first step of a round of `sync_worker`. -/
def poll (s : Desk ι) : Desk ι :=
  if s.lastBroadcastVer < s.reg.header.version then
    { s with lastBroadcastVer := s.reg.header.version }.syncBroadcastDelta maxPayload
      s.lastBroadcastVer
  else s

end Sending

section Receiving

variable (crypto : Crypto) (k : Fin maxPeers) (maxPayload : ℕ) (now : I64)

/-- The SYNC_DELTA of `sync_handle`. -/
def syncApply (s : Desk ι) (data : List Byte) : Desk ι :=
  match applyDelta crypto s.reg data now with
  | .error _ => s
  | .ok (reg, result) =>
    { s.note k (.applied data) with
      reg
      lastBroadcastVer :=
        if 0 < result.entriesNew then reg.header.version else s.lastBroadcastVer }

def syncHandle (s : Desk ι) (msgType : Byte) (data : List Byte) : Desk ι :=
  if msgType = syncVersion then
    if data.length < 4 then s
    else
      let remote := ntohl (data.take 4)
      let s := s.modify k (.setVersion remote)
      if s.reg.header.version < remote then s.syncRequestDelta k maxPayload
      else if remote < s.reg.header.version then s.syncSendDeltaTo k maxPayload remote
      else s
  else if msgType = syncDeltaReq then
    if data.length < 4 then s else s.syncSendDeltaTo k maxPayload (ntohl (data.take 4))
  else if msgType = syncDelta then s.syncApply crypto k now data
  else if msgType = syncFullReq then s.syncSendFull k maxPayload
  else if msgType = syncFull then
    match grDeserialize crypto s.reg data with
    | .error _ => s
    | .ok reg => { s with reg }
  else if msgType = syncPing then (s.syncSend k maxPayload syncPong []).1
  else s

/-- `sudp_recv_cb`; what the mesh and the attestation channel get is only noted, and what they send
in turn is a `send` of its own. -/
def recvCb (i : ι) (s : Desk ι) (channel : BitVec 8) (data : List Byte) (reliable : Bool) : Desk ι :=
  let heard : Received ι := ⟨i, (s.world.client i).root?, s.world.established i, channel, data⟩
  let s := s.note k (.heard heard (s.recorded i))
  if channel = syncCh then
    let fed := reasmFeed (s.peers k).syncReasm data
    let s := s.modify k (.setReasm fed.1)
    match fed.2 with
    | some (msgType, msg) => s.syncHandle crypto k maxPayload now msgType msg
    | none => s
  else if userCh ≤ channel ∧ channel < attestCh then s.note k (.message channel data reliable)
  else s

def deliver (s : Desk ι) (i : ι) (d : Datagram ι) (reliable : Bool) : Desk ι :=
  (s.world.outputs (.deliver i d reliable)).foldl
    (fun s out =>
      match out with
      | .received channel data reliable => s.recvCb crypto k maxPayload now i channel data reliable
      | _ => s)
    (s.act k i (.deliver i d reliable))

def handshake (s : Desk ι) (i : ι) (msg : Message ι) (e : Around ι) : Desk ι :=
  let t := s.act k i (.handshake i msg e)
  if (s.world.outputs (.handshake i msg e)).any Output.isEstablished then t.syncSendVersion k maxPayload
  else t

end Receiving

def occupy (s : Desk ι) (k : Fin maxPeers) (peerId : PeerId) (i : ι) : Desk ι :=
  { s.modify k (fun _ => .dialed peerId i) with used := Function.update s.used i true }

/-- `peer_connect`, with the session that it creates. -/
def peerConnect (s : Desk ι) (self peerId : PeerId) (i : ι) : Desk ι :=
  if peerId = self then s
  else if (s.slotFind peerId).isSome then s
  else
    match s.slotAlloc with
    | none => s
    | some k =>
      if Sudp.connect s.reg (s.world.client i) peerId then s.occupy k peerId i else s

def work (s : Desk ι) (k : Fin maxPeers) (i : ι) (e : Around ι) : Desk ι :=
  match (s.peers k).posted with
  | none => s
  | some peerId => (s.modify k .taken).act k i (.connect i peerId e)

end Desk

inductive SlotEvent (ι : Type)
  | work (e : Around ι)
  | handshake (msg : Message ι) (e : Around ι) (maxPayload : ℕ)
  | encrypt (flags channel : BitVec 8) (seq : BitVec 32) (payload : List Byte) (e : Around ι)
  | decrypt (d : Option (Datagram ι)) (e : Around ι)
  | deliver (d : Datagram ι) (reliable : Bool) (maxPayload : ℕ) (now : I64)
  | send (maxPayload : ℕ) (channel : BitVec 8) (data : List Byte) (reliable : Bool)
  -- `sync_worker` frees a slot that has failed, or that was silent for too long
  | free

inductive DeskEvent (ι : Type)
  | dial (peerId : PeerId) (i : ι)
  | slot (k : Fin maxPeers) (event : SlotEvent ι)
  | poll (maxPayload : ℕ)
  | mutate (m : Mutation) (clk : Clock)
  -- what happens on the wire, and at the sessions of others
  | other (event : Event ι)

variable {ι : Type} [DecidableEq ι]

namespace Desk

variable (crypto : Crypto) (self : PeerId) (s : Desk ι)

def slotNext (k : Fin maxPeers) (i : ι) : SlotEvent ι → Desk ι
  | .work e => s.work k i e
  | .handshake msg e maxPayload => s.handshake k maxPayload i msg e
  | .encrypt flags channel seq payload e => s.act k i (.encrypt i flags channel seq payload e)
  | .decrypt d e => s.act k i (.decrypt i d e)
  | .deliver d reliable maxPayload now => s.deliver crypto k maxPayload now i d reliable
  | .send maxPayload channel data reliable => (s.sendChannel k maxPayload channel data reliable).1
  | .free => s.modify k fun _ => .free

def next : DeskEvent ι → Desk ι
  | .dial peerId i => s.peerConnect self peerId i
  | .slot k event =>
    match (s.peers k).sudp with
    | none => s
    | some i => s.slotNext crypto k i event
  | .poll maxPayload => s.poll maxPayload
  | .mutate m clk =>
    match m.run crypto s.reg clk with
    | .error _ => s
    | .ok reg => { s with reg }
  | .other event => { s with world := s.world.next event }

end Desk

section System

variable (crypto : Crypto) (ident : ι → Identity) (self : Identity) (mine : ι → Prop)

def SlotEnabled (s : Desk ι) (i : ι) : SlotEvent ι → Prop
  | .work e => e.reg = s.reg
  | .handshake msg e _ => e.reg = s.reg ∧ Sudp.Enabled ident s.world (.handshake i msg e)
  | .encrypt flags channel seq payload e =>
    e.reg = s.reg ∧ Sudp.Enabled ident s.world (.encrypt i flags channel seq payload e)
  | .decrypt d e => e.reg = s.reg ∧ Sudp.Enabled ident s.world (.decrypt i d e)
  | .deliver d reliable _ _ => Sudp.Enabled ident s.world (.deliver i d reliable)
  | .send _ _ _ _ | .free => True

/-- The sessions of a world are there from its start, so `peer_connect` takes one that is what it
would create; nothing has happened at a session of the client that was not taken. -/
def DeskEnabled (s : Desk ι) : DeskEvent ι → Prop
  | .dial _ i => mine i ∧ s.used i = false ∧ ∃ firstContact token now,
      Sudp.create i s.reg self firstContact token now = some (s.world.client i)
  | .slot k event => ∀ i ∈ (s.peers k).sudp, SlotEnabled ident s i event
  | .other event => (∀ i ∈ event.actor, ¬ mine i) ∧ Sudp.Enabled ident s.world event
  | .poll _ | .mutate _ _ => True

structure DeskStarts (s : Desk ι) : Prop where
  world : Sudp.Starts ident s.world
  peers : ∀ k, s.peers k = .free
  used : ∀ i, s.used i = false
  recorded : ∀ i, s.recorded i = none
  log : s.log = []

def deskSystem : System (Desk ι) (DeskEvent ι) where
  init := DeskStarts ident
  step s e t := DeskEnabled ident self mine s e ∧ t = s.next crypto self.peerId e

end System

end YumiBrowser.Client

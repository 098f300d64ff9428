import YumiBrowser.Library.System
import YumiBrowser.Network.Session

namespace YumiBrowser.Sudp

open Wire Ideal Transition
open YumiBrowser.Group (Registrar Identity PeerId PublicKey EpochKey Epoch epochGetCurrent)

def flagReliable : BitVec 8 := 0x01
def flagAck : BitVec 8 := 0x02
def flagProbe : BitVec 8 := 0x04

/-- A datagram of the inner transport: `build_header`, then the payload. -/
def buildPacket (flags channel : BitVec 8) (seq : BitVec 32) (payload : List Byte) : List Byte :=
  flags :: channel :: (writeU32 seq ++ (writeU32 (BitVec.ofNat 32 payload.length) ++ payload))

def isControl (flags : BitVec 8) : Bool := flags &&& (flagAck ||| flagProbe) ≠ 0

def flagsOf (pt : List Byte) : BitVec 8 := pt.headD 0

def payloadOf (pt : List Byte) : List Byte :=
  (pt.drop udpHdrSize).take (ofLe ((pt.drop 6).take 4))

/-- A data packet: its payload goes to `recv_cb`, unless the epoch does not match. -/
def IsData (pt : List Byte) : Prop :=
  isControl (flagsOf pt) = false ∧ (payloadOf pt).take 4 ≠ [0, 0, 0, 0]

variable {ι : Type}

def Seed.root? : Seed ι → Option (Root ι)
  | zero => none
  | init root => some root
  | rekey seed _ => seed.root?

def Key.root? : Key ι → Option (Root ι)
  | gen seed _ _ => seed.root?
  | _ => none

def Client.root? (c : Client ι) : Option (Root ι) := c.rekeySeed.root?

def Key.Known : Key ι → Prop
  | gen seed _ _ => ∀ root, seed.root? = some root → root.mlkem.Known
  | _ => True

/-- What a client passed to its send function, and in which session. -/
structure Sent (ι : Type) where
  sender : ι
  session : Option (Root ι)
  payload : List Byte

/-- What a client's `recv_cb` was called with, in which session, and by which signature that
session had become ESTABLISHED. -/
structure Received (ι : Type) where
  receiver : ι
  session : Option (Root ι)
  peer : Option (Sig ι)
  channel : BitVec 8
  data : List Byte

/-- The honest clients, and what has passed between them and over the network. -/
structure World (ι : Type) where
  client : ι → Client ι
  verified : ι → Option (Sig ι)
  established : ι → Option (Sig ι)
  signed : List (Sig ι)
  wire : List (Datagram ι)
  held : List (ι × Datagram ι)
  sent : List (Sent ι)
  received : List (Received ι)

inductive Event (ι : Type)
  | connect (i : ι) (peerId : PeerId) (e : Around ι)
  | handshake (i : ι) (msg : Message ι) (e : Around ι)
  | send (i : ι) (maxPayload : ℕ) (channel : BitVec 8) (data : List Byte) (reliable : Bool)
  | encrypt (i : ι) (flags channel : BitVec 8) (seq : BitVec 32) (payload : List Byte) (e : Around ι)
  | inject (d : Datagram ι)
  | decrypt (i : ι) (d : Option (Datagram ι)) (e : Around ι)
  | deliver (i : ι) (d : Datagram ι) (reliable : Bool)
  | kick (i : ι) (e : Around ι)

variable [DecidableEq ι]

def World.log (i : ι) (s : World ι) : Output ι → World ι
  | .state .established => { s with established := Function.update s.established i (s.verified i) }
  | .signed signature => { s with signed := signature :: s.signed }
  | .verified signature => { s with verified := Function.update s.verified i (some signature) }
  | .queued payload _ => { s with sent := ⟨i, (s.client i).root?, payload⟩ :: s.sent }
  | .received channel data _ =>
    { s with received := ⟨i, (s.client i).root?, s.established i, channel, data⟩ :: s.received }
  | _ => s

def World.absorb (s : World ι) (i : ι) (o : Outcome ι) : World ι :=
  o.2.foldl (World.log i) { s with client := Function.update s.client i o.1 }

def World.next (s : World ι) : Event ι → World ι
  | .connect i peerId e => s.absorb i (workerConnect e (s.client i) peerId)
  | .handshake i msg e => s.absorb i (processHandshakeMsg e (s.client i) msg)
  | .send i maxPayload channel data reliable =>
    s.absorb i (encryptSend maxPayload (s.client i) channel data reliable)
  | .encrypt i flags channel seq payload e =>
    let r := pktEncrypt e (s.client i) (buildPacket flags channel seq payload)
    let s := s.absorb i r.1
    { s with wire := r.2.toList ++ s.wire }
  | .inject d => { s with wire := d :: s.wire }
  | .decrypt i d e =>
    let r := pktDecrypt e (s.client i) d
    let s := s.absorb i r.1
    if r.2.isSome then { s with held := d.toList.map (i, ·) ++ s.held } else s
  | .deliver i d reliable => s.absorb i (innerRecvData (s.client i) (payloadOf d.packet) reliable)
  | .kick i e => s.absorb i (notifyKick e.reg (s.client i))

def Message.signature? : Message ι → Option (Sig ι)
  | .hello _ => none
  | .response msg => some msg.signature
  | .confirm msg => some msg.signature

section System

variable (ident : ι → Identity)

def IsHonest (key : PublicKey) : Prop := ∃ i, (ident i).publicKey = key

def Enabled (s : World ι) : Event ι → Prop
  | .handshake _ msg _ =>
    ∀ signature ∈ msg.signature?, Presentable (· ∈ s.signed) (IsHonest ident) signature
  | .encrypt i flags _ _ payload _ =>
    payload.length < 2 ^ 32 ∧
      (isControl flags ∨ payload.take 4 = [0, 0, 0, 0] ∨
        ∃ x ∈ s.sent, x.sender = i ∧ x.payload = payload)
  | .inject d => d.key.Known
  | .decrypt _ d _ => ∀ d' ∈ d, d' ∈ s.wire
  | .deliver i d _ => (i, d) ∈ s.held ∧ IsData d.packet
  | _ => True

def Starts (s : World ι) : Prop :=
  (∀ i, ∃ reg firstContact token now,
      create i reg (ident i) firstContact token now = some (s.client i)) ∧
    (∀ i, s.verified i = none ∧ s.established i = none) ∧
    s.signed = [] ∧ s.wire = [] ∧ s.held = [] ∧ s.sent = [] ∧ s.received = []

def sudpSystem : System (World ι) (Event ι) where
  init := Starts ident
  step s e t := Enabled ident s e ∧ t = s.next e

end System

section Clients

theorem client_log (i : ι) (s : World ι) (o : Output ι) : (s.log i o).client = s.client := by
  cases o with
  | state state => cases state <;> rfl
  | _ => rfl

theorem client_absorb (s : World ι) (i : ι) (o : Outcome ι) :
    (s.absorb i o).client = Function.update s.client i o.1 := by
  have hlogs : ∀ (outs : List (Output ι)) (t : World ι),
      (outs.foldl (World.log i) t).client = t.client := by
    intro outs
    induction outs with
    | nil => exact fun t => rfl
    | cons o outs ih => exact fun t => (ih (t.log i o)).trans (client_log i t o)
  exact hlogs o.2 _

structure Kept (P : Client ι → Prop) : Prop where
  connect : ∀ e c peerId, P c → P (workerConnect e c peerId).1
  handshake : ∀ e c msg, P c → P (processHandshakeMsg e c msg).1
  send : ∀ maxPayload c channel data reliable, P c → P (encryptSend maxPayload c channel data reliable).1
  encrypt : ∀ e c pt, P c → P (pktEncrypt e c pt).1.1
  decrypt : ∀ e c d, P c → P (pktDecrypt e c d).1.1
  deliver : ∀ c pkt reliable, P c → P (innerRecvData c pkt reliable).1
  kick : ∀ reg c, P c → P (notifyKick reg c).1

variable {ident : ι → Identity} {P : Client ι → Prop}

theorem Kept.absorb (hs : ∀ j, P (s.client j)) {o : Outcome ι} (ho : P o.1) (j : ι) :
    P ((World.absorb s i o).client j) := by
  rw [client_absorb, Function.update_apply]
  split
  · exact ho
  · exact hs j

theorem Kept.next (h : Kept P) (hs : ∀ j, P (s.client j)) (event : Event ι) :
    ∀ j, P ((World.next s event).client j) := by
  cases event with
  | connect i peerId e => exact Kept.absorb hs (h.connect e _ peerId (hs i))
  | handshake i msg e => exact Kept.absorb hs (h.handshake e _ msg (hs i))
  | send i maxPayload channel data reliable =>
    exact Kept.absorb hs (h.send maxPayload _ channel data reliable (hs i))
  | encrypt i flags channel seq payload e => exact Kept.absorb hs (h.encrypt e _ _ (hs i))
  | inject d => exact hs
  | decrypt i d e =>
    intro j
    unfold World.next
    dsimp only
    split <;> exact Kept.absorb hs (h.decrypt e _ d (hs i)) j
  | deliver i d reliable => exact Kept.absorb hs (h.deliver _ _ reliable (hs i))
  | kick i e => exact Kept.absorb hs (h.kick e.reg _ (hs i))

theorem Kept.reachable (h : Kept P)
    (h0 : ∀ (i : ι) reg firstContact token now c,
      create i reg (ident i) firstContact token now = some c → P c) :
    (sudpSystem ident).Reachable s → ∀ i, P (s.client i) := by
  apply System.Reachable.invariant
  · intro s hs i
    obtain ⟨reg, firstContact, token, now, hc⟩ := hs.1 i
    exact h0 i reg firstContact token now _ hc
  · rintro s event t _ hs ⟨_, rfl⟩
    exact h.next hs event

end Clients

end YumiBrowser.Sudp

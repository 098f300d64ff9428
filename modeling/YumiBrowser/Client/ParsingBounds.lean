import YumiBrowser.Client.SlotMemory
import YumiBrowser.Network.SessionMemory
import YumiBrowser.Network.TransportMemory

namespace YumiBrowser.Client.Memory

open Wire Blocks
open YumiBrowser.Group (PeerId)
open YumiBrowser.Udp (hdrSize maxDgram)

structure Datagram where
  bytes : List Byte
  limit : bytes.length ≤ maxDgram

abbrev Stack := Udp.Memory.Client (Sudp.Memory.Client Slot)

/-- What a stack does not decide itself. -/
structure World (σ : Type) where
  identity : PeerId
  slot : Fin maxPeers
  linkMtu : ℕ
  cryptoOverhead : ℕ
  answers : ℕ → Sudp.Memory.Answers
  around : ℕ → Surroundings σ

inductive Event
  | datagram (now : ℕ) (d : Datagram)
  | send (now : ℕ) (grows : Bool) (seq : BitVec 32) (channel : Byte) (payload : List Byte)
  | ccProbe (now : ℕ) (grows : Bool) (seq : BitVec 32)
  | timer (now : ℕ)
  | connect (peerId : PeerId) (deadline : BitVec 64) (created made sent : Bool)
  -- the epoch, the status of the peer and the state of the session change
  | session (epochId : BitVec 32) (peerActive : Bool) (state : Sudp.SessionState)

section Stack

variable {σ : Type} (w : World σ)

/-- `sudp_recv_cb` of the slot. -/
def recvCb : Slot → Byte → List Byte → Bool → Checked Slot := sudpRecvCb w.around w.slot

/-- `sudp_inner_recv` of its session. -/
def innerRecv (c : Sudp.Memory.Client Slot) (data : List Byte) (reliable : Bool) (_seq : BitVec 32) :
    Checked (Sudp.Memory.Client Slot) :=
  Sudp.Memory.sudpInnerRecv w.identity w.answers (some (recvCb w)) c data reliable

def step (c : Stack) : Event → Checked Stack
  | .datagram now d => Udp.Memory.workerRecv (some (innerRecv w)) now c d.bytes
  | .send now grows seq channel payload =>
    .ok (Udp.Memory.sendReliable c now grows seq (Udp.Memory.maxPayload w.linkMtu w.cryptoOverhead) channel payload)
  | .ccProbe now grows seq => .ok (Udp.Memory.ccProbe c now grows seq)
  | .timer now => .ok (Udp.Memory.retransmit c now)
  | .connect peerId deadline created made sent =>
    .ok { c with user := Sudp.Memory.workerConnect c.user peerId deadline created made sent }
  | .session epochId peerActive state => .ok { c with user := { c.user with epochId, peerActive, state } }

def run (c : Stack) (events : List Event) : Checked Stack := events.foldlM (step w) c

end Stack

/-- `yumi_sudp_client_create` for a slot. -/
def create (firstContact : Bool) (epochId : BitVec 32) (slot : Slot) : Sudp.Memory.Client Slot where
  state := .disconnected
  hs := some (.create firstContact)
  epochId := epochId
  peerActive := false
  peerId := .fill 32 0
  firstContact := firstContact
  isInitiator := false
  hsDeadlineUs := 0
  calls := 0
  messages := []
  delivered := []
  user := slot

def Event.received : Event → List (List Byte)
  | .datagram _ d => [d.bytes]
  | .send .. => []
  | .ccProbe .. => []
  | .timer _ => []
  | .connect .. => []
  | .session .. => []

def received (events : List Event) : List (List Byte) := events.flatMap Event.received

def payloadBytes (hist : List (List Byte)) : ℕ := sumLen (hist.map (List.drop hdrSize))

/-- What a stack has handed on is within what it was given: what one datagram makes is part of that datagram, and
all that is put together is, with the rest, not more than came. -/
structure InBounds (hist : List (List Byte)) (c : Stack) : Prop where
  transport : ∀ data ∈ c.delivered, ∃ d ∈ hist, data <+: d.drop hdrSize
  envelope : ∀ call ∈ c.user.delivered, ∃ d ∈ hist, call.2 <:+: d.drop hdrSize
  application : ∀ o, Output.mesh o ∈ c.user.user.outputs → ∃ d ∈ hist, (Output.mesh o).upward <:+: d.drop hdrSize
  delivered : sumLen c.delivered ≤ payloadBytes hist
  upward : sumLen c.user.messages + sumLen (c.user.user.outputs.map Output.upward) ≤ payloadBytes hist

section Bounds

variable {σ : Type} {w : World σ} {c : Stack} {hist : List (List Byte)}

def Session : List (List Byte) → Sudp.Memory.Client Slot → Prop := Sudp.Memory.Client.Accounts Slot.Accounts

def Sound (hist : List (List Byte)) (c : Stack) : Prop := c.Accounts Session hist 0

theorem recvCb_serves : Sudp.Memory.Serves Slot.Accounts (recvCb w) :=
  fun _ _ _ _ _ hlen h => Slot.sudpRecvCb_safe h hlen

theorem innerRecv_serves : Udp.Memory.Serves Session (innerRecv w) := by
  intro given c data reliable seq hlen h
  have hlen : data.length ≤ 1442 := hlen
  refine Sudp.Memory.sudpInnerRecv_safe (fun f hf => ?_) h (by omega)
  obtain rfl := Option.some.inj hf
  exact recvCb_serves

theorem step_safe (h : Sound hist c) (event : Event) :
    Safe (step w c event) (Sound (hist ++ event.received)) := by
  cases event with
  | datagram now d =>
    refine Udp.Memory.workerRecv_safe (fun f hf => ?_) d.limit h
    obtain rfl := Option.some.inj hf
    exact innerRecv_serves
  | send now grows seq channel payload =>
    refine .ok ?_
    rw [Event.received, List.append_nil]
    exact h.send (Udp.Memory.maxPayload_le _ _) now grows seq channel payload
  | ccProbe now grows seq =>
    refine .ok ?_
    rw [Event.received, List.append_nil]
    exact h.withSender (h.sender.add grows (Nat.zero_le _))
  | timer now =>
    refine .ok ?_
    rw [Event.received, List.append_nil]
    exact h.withSender (h.sender.retransmit now)
  | connect peerId deadline created made sent =>
    refine .ok ?_
    rw [Event.received, List.append_nil]
    exact h.withUser (h.user.connect peerId deadline created made sent)
  | session epochId peerActive state =>
    refine .ok ?_
    rw [Event.received, List.append_nil]
    exact h.withUser ⟨h.user.hs, h.user.user, h.user.bytes, h.user.part⟩

theorem run_safe (h : Sound hist c) (events : List Event) :
    Safe (run w c events) (Sound (hist ++ received events)) := by
  induction events generalizing c hist with
  | nil =>
    refine .ok ?_
    rwa [received, List.flatMap_nil, List.append_nil]
  | cons event events ih =>
    rw [run, List.foldlM_cons]
    refine .bind (step_safe h event) fun c' h' => ?_
    rw [received, List.flatMap_cons, ← List.append_assoc]
    exact ih h'

theorem sound_create (firstContact : Bool) (epochId : BitVec 32) (bucket : Bucket) (now : ℤ)
    (timeout maxRetransmits : ℕ) :
    Sound [] (.fresh timeout maxRetransmits (create firstContact epochId (.fresh bucket now))) := by
  refine Udp.Memory.accounts_fresh ⟨?_, Slot.accounts_fresh bucket now, ?_, ?_⟩ timeout maxRetransmits
  · rintro h ⟨⟩
    exact Sudp.Memory.HsCtx.wellFormed_empty rfl
  · have hheld : (create firstContact epochId (.fresh bucket now)).held = 0 := Sudp.Memory.HsCtx.held_empty rfl
    rw [hheld]
    exact Nat.zero_le _
  · exact fun d hd => absurd hd List.not_mem_nil

theorem Sound.envelope (h : Sound hist c) {call : Byte × List Byte} (hcall : call ∈ c.user.delivered) :
    ∃ d ∈ hist, call.2 <:+: d.drop hdrSize := by
  obtain ⟨data, hdata, hpart⟩ := h.user.part call hcall
  obtain ⟨d, hd, hprefix⟩ := h.part data hdata
  exact ⟨d, hd, hpart.trans hprefix.isInfix⟩

theorem Sound.inBounds (h : Sound hist c) : InBounds hist c where
  transport := h.part
  envelope _ hcall := h.envelope hcall
  application o ho := by
    obtain ⟨_, hdata, hpart⟩ := h.user.user.part o ho
    obtain ⟨call, hcall, rfl⟩ := List.mem_map.mp hdata
    obtain ⟨d, hd, hinfix⟩ := h.envelope hcall
    exact ⟨d, hd, hpart.trans hinfix⟩
  delivered := by
    have htransport := h.bytes
    unfold payloadBytes
    omega
  upward := by
    have htransport := h.bytes
    have hsession := h.user.bytes
    have hslot := h.user.user.bytes
    unfold payloadBytes
    omega

end Bounds

/-- Parsing stays in bounds: whatever a stack has been through and whatever datagrams come, no read leaves the bytes
it was given, no copy leaves the block it goes to, and what is handed on is not more than what came. -/
theorem parsing_in_bounds {σ : Type} (w : World σ) (firstContact : Bool) (epochId : BitVec 32) (bucket : Bucket)
    (now : ℤ) (timeout maxRetransmits : ℕ) (events : List Event) :
    ∃ c, run w (.fresh timeout maxRetransmits (create firstContact epochId (.fresh bucket now))) events = .ok c ∧
      InBounds (received events) c :=
  (run_safe (sound_create firstContact epochId bucket now timeout maxRetransmits) events).mono fun _ h => h.inBounds

end YumiBrowser.Client.Memory

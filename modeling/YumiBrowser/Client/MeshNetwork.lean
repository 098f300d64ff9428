import Mathlib.Algebra.Order.BigOperators.Group.List
import YumiBrowser.Client.Mesh
import YumiBrowser.Registrar.DeltaAuthorization

universe u

namespace YumiBrowser.Client

open Wire Transition
open YumiBrowser.Group (PeerId)

abbrev SlotOf (ι : Type u) : Type u := ι × Fin maxPeers

abbrev Member (ι : Type u) : Type u := MeshClient (Option (SlotOf ι))

structure Flying (ι : Type u) where
  call : Option ℕ
  target : SlotOf ι
  data : List Byte

/-- A call of `mesh_relay_send`. -/
structure MeshCall where
  src : PeerId
  dst : PeerId
  channel : Byte
  data : List Byte
  deriving DecidableEq

/-- A call of `on_message` by `mesh_handle`. -/
structure Relayed (ι : Type u) where
  call : Option ℕ
  client : ι
  src : PeerId
  channel : Byte
  payload : List Byte
  deriving DecidableEq

structure Mesh (ι : Type u) where
  clients : ι → Member ι
  buckets : SlotOf ι → Bucket
  clock : ℤ
  flight : List (Flying ι)
  calls : List MeshCall
  messages : List (Relayed ι)

inductive MeshEvent (ι : Type u)
  -- a client calls `mesh_relay_send`
  | relay (i : ι) (dst : PeerId) (channel : Byte) (data : List Byte)
  -- `mesh_handle` gets the packet at an index of those under way
  | deliver (index : ℕ) (now : ℤ)
  -- a session refuses or loses a packet
  | lose (index : ℕ)
  -- somebody who does not keep to the protocol sends what he likes to a slot of his
  | inject (target : SlotOf ι) (data : List Byte)
  -- a slot is freed, filled, connected or failed
  | rewire (target : SlotOf ι) (slot : SlotView (Option (SlotOf ι))) (bucket : Bucket)

namespace MeshClient

variable {ι : Type u} (c : Member ι) (call : Option ℕ)

def link (k : Fin maxPeers) : Option (SlotOf ι) := (c.peers k).sudp.join

def carry (sent : MeshSend) : Option (Flying ι) := (c.link sent.slot).map (⟨call, ·, sent.data⟩)

end MeshClient

section Outputs

variable {ι : Type u}

def sendsOf (outs : List MeshOutput) : List MeshSend :=
  outs.filterMap fun out =>
    match out with
    | .send sent => some sent
    | _ => none

def relayedOf (call : Option ℕ) (i : ι) (outs : List MeshOutput) : List (Relayed ι) :=
  outs.filterMap fun out =>
    match out with
    | .message src channel payload _ => some ⟨call, i, src, channel, payload⟩
    | _ => none

variable {call : Option ℕ} {i : ι}

@[simp] theorem sendsOf_send (sents : List MeshSend) : sendsOf (sents.map .send) = sents := by
  simp [sendsOf, List.filterMap_map]

@[simp] theorem relayedOf_send (sents : List MeshSend) : relayedOf call i (sents.map .send) = [] := by
  simp [relayedOf, List.filterMap_map]

variable {σ : Type u} (c : MeshClient σ) (b : Bucket) (now : ℤ) (k : Fin maxPeers) (data : List Byte)

theorem meshHandle_passed {p : MeshPacket} (hp : MeshPacket.parse data = some p)
    (hpass : (b.meshBucketAllow now data.length).2 = true) :
    (c.meshHandle b now k data).1 = ((b.meshBucketAllow now data.length).1.count data.length).1 ∧
    sendsOf (c.meshHandle b now k data).2 = sendsOf (c.dispatch k p data) ∧
    ∀ (call : Option ℕ) (i : ι),
      relayedOf call i (c.meshHandle b now k data).2 = relayedOf call i (c.dispatch k p data) := by
  unfold MeshClient.meshHandle
  rcases hallow : b.meshBucketAllow now data.length with ⟨b', allowed⟩
  obtain rfl : allowed = true := by rwa [hallow] at hpass
  rcases hcount : b'.count data.length with ⟨b'', flagged⟩
  simp only [hp, hcount]
  cases flagged with
  | false => exact ⟨rfl, rfl, fun _ _ => rfl⟩
  | true => exact ⟨rfl, rfl, fun _ _ => rfl⟩

theorem meshHandle_refused (hpass : (b.meshBucketAllow now data.length).2 = false) :
    (c.meshHandle b now k data).2 = [] := by
  unfold MeshClient.meshHandle
  rcases hallow : b.meshBucketAllow now data.length with ⟨b', allowed⟩
  obtain rfl : allowed = false := by rwa [hallow] at hpass
  split <;> rfl

theorem meshHandle_cases :
    (c.meshHandle b now k data).2 = [] ∨
    ∃ p, MeshPacket.parse data = some p ∧
      sendsOf (c.meshHandle b now k data).2 = sendsOf (c.dispatch k p data) ∧
      ∀ (call : Option ℕ) (i : ι),
        relayedOf call i (c.meshHandle b now k data).2 = relayedOf call i (c.dispatch k p data) := by
  cases hp : MeshPacket.parse data with
  | none =>
    unfold MeshClient.meshHandle
    rw [hp]
    exact .inl rfl
  | some p =>
    cases hpass : (b.meshBucketAllow now data.length).2 with
    | false => exact .inl (meshHandle_refused c b now k data hpass)
    | true => exact .inr ⟨p, rfl, (meshHandle_passed c b now k data hp hpass).2⟩

end Outputs

namespace Mesh

variable {ι : Type u} [DecidableEq ι] (s : Mesh ι)

def neighbour (target : SlotOf ι) : PeerId := ((s.clients target.1).peers target.2).peerId

def handled (p : Flying ι) (now : ℤ) : Bucket × List MeshOutput :=
  (s.clients p.target.1).meshHandle (s.buckets p.target) now p.target.2 p.data

/-- `mesh_handle` gets a packet. -/
def handle (p : Flying ι) (now : ℤ) : Mesh ι :=
  let outs := (s.handled p now).2
  { s with
    buckets := Function.update s.buckets p.target (s.handled p now).1
    clock := now
    flight := (sendsOf outs).filterMap ((s.clients p.target.1).carry p.call) ++ s.flight
    messages := relayedOf p.call p.target.1 outs ++ s.messages }

def inject (target : SlotOf ι) (data : List Byte) : Mesh ι :=
  match MeshPacket.parse data with
  | some p =>
    if p.src = s.neighbour target then
      { s with
        flight := ⟨some s.calls.length, target, data⟩ :: s.flight
        calls := s.calls ++ [⟨p.src, p.dst, p.innerCh, p.payload⟩] }
    else { s with flight := ⟨none, target, data⟩ :: s.flight }
  | none => { s with flight := ⟨none, target, data⟩ :: s.flight }

def next : MeshEvent ι → Mesh ι
  | .relay i dst channel data =>
    let c := s.clients i
    { s with
      flight := (c.meshRelaySend dst channel data).filterMap (c.carry (some s.calls.length)) ++ s.flight
      calls := s.calls ++ [⟨c.peerId, dst, channel, data⟩] }
  | .deliver index now =>
    match s.flight[index]? with
    | some p => { s with flight := s.flight.eraseIdx index }.handle p now
    | none => s
  | .lose index => { s with flight := s.flight.eraseIdx index }
  | .inject target data => s.inject target data
  | .rewire target slot bucket =>
    let c := s.clients target.1
    { s with
      clients := Function.update s.clients target.1
        { c with peers := Function.update c.peers target.2 slot }
      buckets := Function.update s.buckets target bucket
      flight := s.flight.filter fun p => p.target ≠ target ∨ slot.sudp = (c.peers target.2).sudp }

def Enabled : MeshEvent ι → Prop
  | .deliver _ now => s.clock ≤ now
  | .inject target _ => ((s.clients target.1).peers target.2).sudp = some none
  | .rewire target _ bucket => bucket = s.buckets target ∨ bucket = .freed
  | _ => True

end Mesh

def mesh (ι : Type u) [DecidableEq ι] : System (Mesh ι) (MeshEvent ι) where
  init s := s.clock = 0 ∧ s.flight = [] ∧ s.calls = [] ∧ s.messages = [] ∧
    ∀ target, s.buckets target = .created ∨ s.buckets target = .freed
  step s event t := s.Enabled event ∧ t = s.next event

namespace Mesh

variable {ι : Type u} [DecidableEq ι] {s : Mesh ι} {ok : Mesh ι → MeshEvent ι → Prop}

theorem reachable_next (hs : ((mesh ι).restrict ok).Reachable s) (event : MeshEvent ι)
    (hok : ok s event) (hen : s.Enabled event) : ((mesh ι).restrict ok).Reachable (s.next event) :=
  hs.step ⟨hok, hen, rfl⟩

end Mesh

end YumiBrowser.Client

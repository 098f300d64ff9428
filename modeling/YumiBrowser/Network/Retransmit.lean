import YumiBrowser.Network.RetransmitHeap

universe u

namespace YumiBrowser.Udp

open Transition

variable {α : Type u}

/-- `yumi_udp_client_create`: a configured 0 stands for the default. -/
def reliableTimeoutUs (cfg : ℕ) : ℕ := if 0 < cfg then cfg else 200000

def maxRetransmits (cfg : ℕ) : ℕ := if 0 < cfg then cfg else 5

theorem reliableTimeoutUs_pos (cfg : ℕ) : 0 < reliableTimeoutUs cfg := by
  unfold reliableTimeoutUs
  split
  · assumption
  · decide

/-- The pending packets of a sender; each packet that was added goes by the number of its addition.
`retransmitted` are those the timer has sent again, once for every time, and `lost` those that were
reported to the congestion control. -/
structure Pending (α : Type u) where
  rel : Reliable (ℕ × α)
  probeInflight : ℤ
  clock : ℕ
  added : ℕ
  retransmitted : List ℕ
  lost : List ℕ
  acked : List ℕ

namespace Pending

def number (e : ReliableEntry (ℕ × α)) : ℕ := e.payload.1

def fresh (cfgTimeout cfgRetransmits : ℕ) : Pending α where
  rel := .fresh (reliableTimeoutUs cfgTimeout) (maxRetransmits cfgRetransmits)
  probeInflight := 0
  clock := 0
  added := 0
  retransmitted := []
  lost := []
  acked := []

/-- The clock is read in every step but a resize, and never goes back. -/
inductive Event (α : Type u)
  | add (now : ℕ) (channel : BitVec 8) (probe : Bool) (seq : BitVec 32) (payload : α)
  | ack (now : ℕ) (seq : BitVec 32) (channel : BitVec 8) (probe : Bool)
  | sack (now : ℕ) (channel : BitVec 8) (cumulative bitmap : BitVec 32)
  | timer (now : ℕ)
  | resize

def probes (es : List (ReliableEntry (ℕ × α))) : ℕ := es.countP ReliableEntry.probe

/-- Whether `worker_reliable_add` finds a slot, in the table as it is or in a larger one. -/
def accepts (s : Reliable (ℕ × α)) (e : ReliableEntry (ℕ × α)) : Bool :=
  (s.tryAdd e).isSome || ((workerReliableResize s).tryAdd e).isSome

def add (s : Pending α) (now : ℕ) (channel : BitVec 8) (probe : Bool) (seq : BitVec 32) (payload : α) :
    Pending α :=
  let e := s.rel.newEntry now channel probe seq (s.added, payload)
  { s with
    rel := workerReliableAdd s.rel true e
    probeInflight := if accepts s.rel e ∧ probe then s.probeInflight + 1 else s.probeInflight
    clock := now
    added := s.added + 1 }

def ack (s : Pending α) (now : ℕ) (seq : BitVec 32) (channel : BitVec 8) (probe : Bool) : Pending α :=
  let found := (workerReliableFind s.rel channel probe seq).bind s.rel.table.slot
  { s with
    rel := workerReliableAck s.rel seq channel probe
    probeInflight := if found.isSome ∧ probe then s.probeInflight - 1 else s.probeInflight
    clock := now
    acked := found.toList.map number ++ s.acked }

def during (s : Pending α) (now : ℕ) (w : Sending (ℕ × α)) : Pending α :=
  { s with
    rel := w.state
    probeInflight := s.probeInflight - probes w.lost
    clock := now
    lost := w.lost.map number ++ s.lost }

def timer (s : Pending α) (now : ℕ) : Pending α :=
  let w := workerReliableRetransmit s.rel now
  { s.during now w with retransmitted := w.deferred.map number ++ s.retransmitted }

def next (s : Pending α) : Event α → Pending α
  | .add now channel probe seq payload => s.add now channel probe seq payload
  | .ack now seq channel probe => s.ack now seq channel probe
  | .sack now channel cumulative bitmap =>
    s.during now (workerHandleSack s.rel now channel cumulative bitmap)
  | .timer now => s.timer now
  | .resize => { s with rel := workerReliableResize s.rel }

def Enabled (s : Pending α) : Event α → Prop
  | .add now _ _ _ _ | .ack now _ _ _ | .sack now _ _ _ | .timer now => s.clock ≤ now
  | .resize => True

end Pending

def pendingSystem (cfgTimeout cfgRetransmits : ℕ) : System (Pending α) (Pending.Event α) :=
  System.machine (.fresh cfgTimeout cfgRetransmits) Pending.Enabled Pending.next

end YumiBrowser.Udp
